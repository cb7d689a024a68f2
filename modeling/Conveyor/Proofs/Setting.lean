-- SUMMARY: The texts that are read as settings, the error for every other text, and the text of a setting.
import Conveyor.Proofs.Legible
import Conveyor.Proofs.Result
import Conveyor.Proofs.Text
import Conveyor.Setting

/-!
# Settings and their texts

A text says a setting in one way only: its last colon ends the target, and the first dot of the target ends
the stream. What is read is in normal form, and a setting in normal form is read back from its text, whatever
colons, dots and blanks stand inside its names.
-/

namespace Conveyor

namespace Setting

open Text

/-! ## Grammar -/

/-- The target names a stream before its first dot and a product behind it. -/
def Names (target stream product : List Char) : Prop :=
  ∃ left right, target = left ++ '.' :: right ∧ '.' ∉ left ∧ stream = trim left ∧ product = trim right ∧
    stream ≠ [] ∧ product ≠ []

/-- The characters say the setting: a target before the last colon and a capacity behind it. -/
def Denotes (cs : List Char) (x : Setting) : Prop :=
  ∃ left right, cs = left ++ ':' :: right ∧ ':' ∉ right ∧ Names (trim left) x.stream.toList x.product.toList ∧
    Numeral.parse? (trim right) = some x.capacity ∧ 0 ≤ x.capacity

/-- What is reported of characters that say no setting: a missing colon first, then the target, then the
capacity. -/
inductive Refuses : List Char → SettingError → Prop
  | noColon {cs : List Char} (h : ':' ∉ cs) : Refuses cs (.noColon (String.ofList cs))
  | badTarget {left right : List Char} (hright : ':' ∉ right)
      (htarget : ∀ stream product, ¬ Names (trim left) stream product) :
      Refuses (left ++ ':' :: right) (.badTarget (String.ofList (trim left)))
  | notAWhole {left right stream product : List Char} (hright : ':' ∉ right)
      (htarget : Names (trim left) stream product) (hcapacity : Numeral.parse? (trim right) = none) :
      Refuses (left ++ ':' :: right) (.notAWhole (String.ofList (trim right)) (String.ofList (trim left)))
  | negative {left right stream product : List Char} {n : Int} (hright : ':' ∉ right)
      (htarget : Names (trim left) stream product) (hcapacity : Numeral.parse? (trim right) = some n) (hn : n < 0) :
      Refuses (left ++ ':' :: right) (.negative (String.ofList (trim right)) (String.ofList (trim left)))

variable {cs left right target stream product pre post : List Char} {x : Setting} {e : SettingError}

/-- The last colon is the one that counts. -/
theorem denotes_append_iff (hright : ':' ∉ right) : Denotes (left ++ ':' :: right) x ↔
    Names (trim left) x.stream.toList x.product.toList ∧ Numeral.parse? (trim right) = some x.capacity ∧
      0 ≤ x.capacity := by
  constructor
  · rintro ⟨left', right', hcs, hright', h⟩
    obtain ⟨rfl, rfl⟩ := sides_of_append_eq hcs hright hright'
    exact h
  · exact fun h => ⟨left, right, rfl, hright, h⟩

/-- Characters say a setting or there is an error to report. -/
theorem denotes_or_refuses (cs : List Char) : (∃ x, Denotes cs x) ∨ ∃ e, Refuses cs e := by
  cases hsides : splitLast? ':' cs with
  | none => exact .inr ⟨_, .noColon (splitLast?_eq_none_iff.1 hsides)⟩
  | some sides =>
    obtain ⟨left, right⟩ := sides
    obtain ⟨rfl, hright⟩ := eq_of_splitLast? hsides
    by_cases htarget : ∃ stream product, Names (trim left) stream product
    · obtain ⟨stream, product, htarget⟩ := htarget
      cases hcapacity : Numeral.parse? (trim right) with
      | none => exact .inr ⟨_, .notAWhole hright htarget hcapacity⟩
      | some n =>
        cases Int.lt_or_le n 0 with
        | inl hn => exact .inr ⟨_, .negative hright htarget hcapacity hn⟩
        | inr hn =>
          refine .inl ⟨⟨String.ofList stream, String.ofList product, n⟩, (denotes_append_iff hright).2 ⟨?_, hcapacity, hn⟩⟩
          rwa [String.toList_ofList, String.toList_ofList]
    · exact .inr ⟨_, .badTarget hright fun stream product h => htarget ⟨stream, product, h⟩⟩

/-! ## Reading -/

theorem parseTarget_of_names (h : Names target stream product) :
    parseTarget target = .ok (String.ofList stream, String.ofList product) := by
  obtain ⟨left, right, rfl, hleft, rfl, rfl, hstream, hproduct⟩ := h
  unfold parseTarget
  rw [splitFirst?_append hleft]
  have hboth : ¬ ((trim left).isEmpty || (trim right).isEmpty) := by
    simp [hstream, hproduct]
  exact if_neg hboth

theorem parseTarget_of_not_names (h : ∀ stream product, ¬ Names target stream product) :
    parseTarget target = .error (.badTarget (String.ofList target)) := by
  unfold parseTarget
  split
  next => rfl
  next left right hsides =>
    refine if_pos (Decidable.not_not.1 fun hboth => ?_)
    obtain ⟨htarget, hleft⟩ := eq_of_splitFirst? hsides
    have hnonempty : trim left ≠ [] ∧ trim right ≠ [] := by simpa using hboth
    exact h _ _ ⟨left, right, htarget, hleft, rfl, rfl, hnonempty⟩

theorem parseCapacity_of_nonneg {n : Int} (h : Numeral.parse? cs = some n) (hn : 0 ≤ n) :
    parseCapacity cs target = .ok n := by
  unfold parseCapacity
  rw [h]
  exact if_neg (Int.not_lt.2 hn)

theorem parseCapacity_of_neg {n : Int} (h : Numeral.parse? cs = some n) (hn : n < 0) :
    parseCapacity cs target = .error (.negative (String.ofList cs) (String.ofList target)) := by
  unfold parseCapacity
  rw [h]
  exact if_pos hn

theorem parseCapacity_of_none (h : Numeral.parse? cs = none) :
    parseCapacity cs target = .error (.notAWhole (String.ofList cs) (String.ofList target)) := by
  unfold parseCapacity
  rw [h]

theorem parseChars_append (hright : ':' ∉ right) : parseChars (left ++ ':' :: right) = (do
    let (stream, product) ← parseTarget (trim left)
    let capacity ← parseCapacity (trim right) (trim left)
    return ⟨stream, product, capacity⟩) := by
  unfold parseChars
  rw [splitLast?_append hright]

theorem Denotes.parseChars_eq (h : Denotes cs x) : parseChars cs = .ok x := by
  obtain ⟨left, right, rfl, hright, htarget, hcapacity, hn⟩ := h
  rw [parseChars_append hright, parseTarget_of_names htarget, parseCapacity_of_nonneg hcapacity hn,
    String.ofList_toList, String.ofList_toList]
  rfl

theorem Refuses.parseChars_eq (h : Refuses cs e) : parseChars cs = .error e := by
  cases h with
  | noColon h =>
    unfold parseChars
    rw [splitLast?_eq_none_iff.2 h]
  | badTarget hright htarget =>
    rw [parseChars_append hright, parseTarget_of_not_names htarget]
    rfl
  | notAWhole hright htarget hcapacity =>
    rw [parseChars_append hright, parseTarget_of_names htarget, parseCapacity_of_none hcapacity]
    rfl
  | negative hright htarget hcapacity hn =>
    rw [parseChars_append hright, parseTarget_of_names htarget, parseCapacity_of_neg hcapacity hn]
    rfl

theorem parseChars_eq_ok_iff : parseChars cs = .ok x ↔ Denotes cs x := by
  refine ⟨fun h => ?_, Denotes.parseChars_eq⟩
  obtain ⟨y, hy⟩ | ⟨e, he⟩ := denotes_or_refuses cs
  · obtain rfl := Except.ok.inj (hy.parseChars_eq.symm.trans h)
    exact hy
  · cases he.parseChars_eq.symm.trans h

theorem parseChars_eq_error_iff : parseChars cs = .error e ↔ Refuses cs e := by
  refine ⟨fun h => ?_, Refuses.parseChars_eq⟩
  obtain ⟨x, hx⟩ | ⟨f, hf⟩ := denotes_or_refuses cs
  · cases hx.parseChars_eq.symm.trans h
  · obtain rfl := Except.error.inj (hf.parseChars_eq.symm.trans h)
    exact hf

/-! ## Writing -/

/-- A setting as it is written. -/
def text (x : Setting) : String := x.stream ++ "." ++ x.product ++ ":" ++ toString x.capacity

/-- The names are not empty and without outer blanks, the stream is without a dot, and the capacity can be
written. -/
structure IsNormal (x : Setting) : Prop where
  stream_ne : x.stream.toList ≠ []
  product_ne : x.product.toList ≠ []
  dot_notMem : '.' ∉ x.stream.toList
  trim_stream : trim x.stream.toList = x.stream.toList
  trim_product : trim x.product.toList = x.product.toList
  capacity_nonneg : 0 ≤ x.capacity
  capacity_writable : IsWritable x.capacity

instance (x : Setting) : Decidable x.IsNormal :=
  decidable_of_iff (_ ∧ _ ∧ _ ∧ _ ∧ _ ∧ _ ∧ _)
    ⟨fun ⟨h₁, h₂, h₃, h₄, h₅, h₆, h₇⟩ => ⟨h₁, h₂, h₃, h₄, h₅, h₆, h₇⟩,
      fun ⟨h₁, h₂, h₃, h₄, h₅, h₆, h₇⟩ => ⟨h₁, h₂, h₃, h₄, h₅, h₆, h₇⟩⟩

theorem Denotes.isNormal (h : Denotes cs x) : x.IsNormal := by
  obtain ⟨left, right, -, -, ⟨sleft, sright, -, hdot, hstream, hproduct, hstreamne, hproductne⟩, hcapacity, hn⟩ := h
  refine ⟨hstreamne, hproductne, ?_, ?_, ?_, hn, Numeral.isWritable_of_parse? hcapacity⟩
  · exact fun hmem => hdot (mem_of_mem_trimBy (hstream ▸ hmem))
  · rw [hstream, trim_trim]
  · rw [hproduct, trim_trim]

theorem capacity_nonneg (h : parseChars cs = .ok x) : 0 ≤ x.capacity :=
  (parseChars_eq_ok_iff.1 h).isNormal.capacity_nonneg

namespace IsNormal

/-- The capacity is written in plain digits. -/
theorem toList_capacity (h : x.IsNormal) : (toString x.capacity).toList = Nat.toDigits 10 x.capacity.toNat := by
  obtain ⟨n, hn⟩ := Int.eq_ofNat_of_zero_le h.capacity_nonneg
  rw [hn, show toString (n : Int) = n.repr from rfl, Nat.repr_eq_ofList_toDigits, String.toList_ofList]
  rfl

theorem toList_text (h : x.IsNormal) : x.text.toList =
    (x.stream.toList ++ ['.'] ++ x.product.toList) ++ ':' :: Nat.toDigits 10 x.capacity.toNat := by
  simp only [text, String.toList_append, h.toList_capacity]
  exact List.append_assoc ..

theorem trim_target (h : x.IsNormal) : trim (x.stream.toList ++ ['.'] ++ x.product.toList) =
    x.stream.toList ++ ['.'] ++ x.product.toList :=
  trimBy_between h.trim_stream h.trim_product h.stream_ne h.product_ne

/-- Nothing is around the text of a setting. -/
theorem trim_text (h : x.IsNormal) : trim x.text.toList = x.text.toList := by
  have htext : x.text.toList =
      x.stream.toList ++ ('.' :: x.product.toList ++ [':']) ++ Nat.toDigits 10 x.capacity.toNat := by
    rw [h.toList_text]
    simp only [List.append_assoc, List.cons_append, List.nil_append]
  rw [htext]
  exact trimBy_between h.trim_stream (Numeral.trim_toDigits _) h.stream_ne Nat.toDigits_ne_nil

theorem denotes_text (h : x.IsNormal) : Denotes x.text.toList x := by
  have hcolon : ':' ∉ Nat.toDigits 10 x.capacity.toNat := fun hmem => absurd (Numeral.isDigit_of_mem_toDigits hmem) (by decide)
  have htarget : Names (x.stream.toList ++ ['.'] ++ x.product.toList) x.stream.toList x.product.toList :=
    ⟨x.stream.toList, x.product.toList, List.append_assoc .., h.dot_notMem, h.trim_stream.symm, h.trim_product.symm,
      h.stream_ne, h.product_ne⟩
  have hcapacity : Numeral.parse? (Nat.toDigits 10 x.capacity.toNat) = some x.capacity := by
    have hlt := Numeral.isWritable_iff.1 h.capacity_writable
    rw [← Int.toNat_of_nonneg h.capacity_nonneg, Int.natAbs_natCast] at hlt
    rw [Numeral.parse?_toDigits hlt, Int.toNat_of_nonneg h.capacity_nonneg]
  rw [h.toList_text, denotes_append_iff hcolon, h.trim_target, Numeral.trim_toDigits]
  exact ⟨htarget, hcapacity, h.capacity_nonneg⟩

end IsNormal

/-- A text is read as the setting that it says, if it says one, and refused with the first thing that is wrong
with it if it does not. What is read is in normal form and is read back from its own text. -/
theorem parse_exact (text : String) :
    (∀ x, parse text = .ok x ↔ Denotes text.toList x) ∧
    (∀ e, parse text = .error e ↔ Refuses text.toList e) ∧
    ((∀ x, ¬ Denotes text.toList x) → ∃ e, parse text = .error e ∧ (Fault.setting e).isValueError = true) ∧
    ∀ x, parse text = .ok x → x.IsNormal ∧ written x.capacity = .ok (toString x.capacity) ∧ parse x.text = .ok x := by
  refine ⟨fun x => parseChars_eq_ok_iff, fun e => parseChars_eq_error_iff, fun hnone => ?_, fun x hx => ?_⟩
  · obtain ⟨e, he⟩ := (denotes_or_refuses text.toList).resolve_left fun ⟨x, hx⟩ => hnone x hx
    exact ⟨e, he.parseChars_eq, rfl⟩
  · have hnormal := (parseChars_eq_ok_iff.1 hx).isNormal
    exact ⟨hnormal, written_of_isWritable hnormal.capacity_writable, hnormal.denotes_text.parseChars_eq⟩

/-- Colons and dots inside the names, blanks around them and digits of two scripts. -/
theorem parse_exact_mixed : parse "\t a:b . c.d:e :\u00a0\u06607 " = .ok ⟨"a:b", "c.d:e", 7⟩ ∧
    parse "a:b.c.d:e:7" = .ok ⟨"a:b", "c.d:e", 7⟩ := by
  have hread : parse "\t a:b . c.d:e :\u00a0\u06607 " = .ok ⟨"a:b", "c.d:e", 7⟩ := by decide +kernel
  have htext : text ⟨"a:b", "c.d:e", 7⟩ = "a:b.c.d:e:7" := by decide +kernel
  have hagain := ((parse_exact _).2.2.2 _ hread).2.2
  rw [htext] at hagain
  exact ⟨hread, hagain⟩

end Setting

end Conveyor
