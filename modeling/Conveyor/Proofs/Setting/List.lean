-- SUMMARY: A list of settings is read back from its texts between commas, and one bad item refuses all of it.
import Conveyor.Proofs.Setting

/-!
# Lists of settings

White space around an item changes nothing, and a blank item is no item. What is left between the commas is
read item by item, all of it or nothing.
-/

namespace Conveyor

namespace Setting

open Text

/-- The items of a list of settings, but for blank ones. -/
def items (text : String) : List (List Char) := ((Text.fields ',' text.toList).map Text.trim).filter (!·.isEmpty)

theorem parseList_eq (text : String) : parseList text = (items text).mapM parseChars := rfl

/-- The items write the settings in order, with blanks around each and blank items anywhere. -/
inductive Writes : List Setting → List String → Prop
  | nil : Writes [] []
  | blank {xs : List Setting} {rest : List String} {item : String} (hitem : ∀ c ∈ item.toList, isBlank c)
      (h : Writes xs rest) : Writes xs (item :: rest)
  | setting {xs : List Setting} {rest : List String} {pre post : String} (hpre : ∀ c ∈ pre.toList, isBlank c)
      (x : Setting) (hpost : ∀ c ∈ post.toList, isBlank c) (h : Writes xs rest) :
      Writes (x :: xs) ((pre ++ x.text ++ post) :: rest)

/-- A setting in normal form whose text is one item of a list. -/
structure IsListed (x : Setting) : Prop extends IsNormal x where
  comma_notMem_stream : ',' ∉ x.stream.toList
  comma_notMem_product : ',' ∉ x.product.toList

instance (x : Setting) : Decidable x.IsListed :=
  decidable_of_iff (x.IsNormal ∧ _ ∧ _)
    ⟨fun ⟨h, hstream, hproduct⟩ => ⟨h, hstream, hproduct⟩, fun ⟨h, hstream, hproduct⟩ => ⟨h, hstream, hproduct⟩⟩

variable {cs pre post : List Char} {x : Setting} {xs : List Setting} {strs : List String} {text : String}

/-! ## Blanks around an item -/

theorem denotes_append_blanks (hpre : ∀ c ∈ pre, isBlank c) (hpost : ∀ c ∈ post, isBlank c) :
    Denotes (pre ++ cs ++ post) x ↔ Denotes cs x := by
  have hcolon {margin : List Char} (h : ∀ c ∈ margin, isBlank c) : ':' ∉ margin := not_mem_of_isBlank (by decide) h
  cases hsides : splitLast? ':' cs with
  | none =>
    -- blanks bring no colon in, so neither side has one
    have hnone := splitLast?_eq_none_iff.1 hsides
    refine iff_of_false ?_ ?_ <;> rintro ⟨left, right, hcs, _⟩
    · have hmem : ':' ∈ pre ++ cs ++ post := hcs ▸ List.mem_append_right _ List.mem_cons_self
      rw [List.mem_append, List.mem_append] at hmem
      obtain (hmem | hmem) | hmem := hmem
      exacts [hcolon hpre hmem, hnone hmem, hcolon hpost hmem]
    · exact hnone (hcs ▸ List.mem_append_right _ List.mem_cons_self)
  | some sides =>
    obtain ⟨left, right⟩ := sides
    obtain ⟨rfl, hright⟩ := eq_of_splitLast? hsides
    have hleft : trim (pre ++ left) = trim left := trimBy_append_left hpre
    have htrim : trim (right ++ post) = trim right := trimBy_append_right hpost
    have hlast : ':' ∉ right ++ post := fun hmem => (List.mem_append.1 hmem).elim hright (hcolon hpost)
    have hcs : pre ++ (left ++ ':' :: right) ++ post = (pre ++ left) ++ ':' :: (right ++ post) := by
      simp only [List.append_assoc, List.cons_append]
    rw [hcs, denotes_append_iff hlast, denotes_append_iff hright, hleft, htrim]

theorem denotes_trim : Denotes (trim cs) x ↔ Denotes cs x := by
  obtain ⟨pre, post, hcs, hpre, hpost⟩ := exists_margins isBlank cs
  conv_rhs => rw [hcs]
  exact (denotes_append_blanks hpre hpost).symm

/-! ## Items -/

theorem mem_items_iff {item : List Char} :
    item ∈ items text ↔ ∃ field ∈ text.toList.splitOn ',', trim field ≠ [] ∧ trim field = item := by
  simp only [items, fields_eq_splitOn, List.mem_filter, List.mem_map, Bool.not_eq_true', List.isEmpty_eq_false_iff]
  constructor
  · rintro ⟨⟨field, hfield, rfl⟩, hne⟩
    exact ⟨field, hfield, hne, rfl⟩
  · rintro ⟨field, hfield, hne, rfl⟩
    exact ⟨⟨field, hfield, rfl⟩, hne⟩

theorem items_intercalate (h : ∀ str ∈ strs, ',' ∉ str.toList) :
    items (",".intercalate strs) = ((strs.map String.toList).map trim).filter (!·.isEmpty) := by
  cases strs with
  -- the empty text still is one item, a blank one
  | nil => rfl
  | cons str strs =>
    unfold items
    rw [fields_eq_splitOn, String.toList_intercalate]
    congr 2
    refine List.splitOn_intercalate ',' (fun item hitem => ?_) (List.cons_ne_nil _ _)
    obtain ⟨str, hstr, rfl⟩ := List.mem_map.1 hitem
    exact h str hstr

theorem parseList_eq_ok_iff : parseList text = .ok xs ↔ List.Forall₂ Denotes (items text) xs := by
  rw [parseList_eq, Result.mapM_eq_ok]
  simp only [parseChars_eq_ok_iff]

/-! ## Written lists -/

theorem IsListed.comma_notMem_text (h : x.IsListed) : ',' ∉ x.text.toList := by
  have hdigits : ',' ∉ Nat.toDigits 10 x.capacity.toNat := fun hmem => absurd (Numeral.isDigit_of_mem_toDigits hmem) (by decide)
  rw [h.toList_text]
  simp [h.comma_notMem_stream, h.comma_notMem_product, hdigits]

theorem IsNormal.text_ne_nil (h : x.IsNormal) : x.text.toList ≠ [] := by
  rw [h.toList_text]
  simp

theorem Writes.comma_notMem (h : Writes xs strs) (hlisted : ∀ x ∈ xs, x.IsListed) : ∀ str ∈ strs, ',' ∉ str.toList := by
  have hcomma {margin : List Char} (h : ∀ c ∈ margin, isBlank c) : ',' ∉ margin := not_mem_of_isBlank (by decide) h
  induction h with
  | nil => exact fun _ h => nomatch h
  | blank hitem _ ih => exact List.forall_mem_cons.2 ⟨hcomma hitem, ih hlisted⟩
  | setting hpre x hpost _ ih =>
    obtain ⟨hx, hxs⟩ := List.forall_mem_cons.1 hlisted
    refine List.forall_mem_cons.2 ⟨?_, ih hxs⟩
    rw [String.toList_append, String.toList_append, List.mem_append, List.mem_append]
    rintro ((hmem | hmem) | hmem)
    exacts [hcomma hpre hmem, hx.comma_notMem_text hmem, hcomma hpost hmem]

/-- The items that are not blank are the texts of the settings. -/
theorem Writes.items_eq (h : Writes xs strs) (hlisted : ∀ x ∈ xs, x.IsListed) :
    ((strs.map String.toList).map trim).filter (!·.isEmpty) = xs.map fun x => x.text.toList := by
  induction h with
  | nil => rfl
  | blank hitem _ ih =>
    rw [List.map_cons, List.map_cons, trim, trimBy_eq_nil_iff.2 hitem]
    exact ih hlisted
  | @setting _ _ pre post hpre x hpost _ ih =>
    obtain ⟨hx, hxs⟩ := List.forall_mem_cons.1 hlisted
    have htrim : trim (pre ++ x.text ++ post).toList = x.text.toList := by
      rw [String.toList_append, String.toList_append]
      exact (trimBy_append hpre hpost).trans hx.trim_text
    rw [List.map_cons, List.map_cons, htrim, List.filter_cons_of_pos (by simpa using hx.text_ne_nil), ih hxs,
      List.map_cons]

/-- Settings that are written between commas, with any blanks and blank items, are read back in order. A text
with an item that says no setting is refused, for the fault of such an item. -/
theorem parseList_exact :
    (∀ xs strs, Writes xs strs → (∀ x ∈ xs, x.IsListed) → parseList (",".intercalate strs) = .ok xs) ∧
    ∀ text, ∀ field ∈ text.toList.splitOn ',', trim field ≠ [] → (∀ x, ¬ Denotes field x) →
      ∃ e, parseList text = .error e ∧ ∃ bad ∈ text.toList.splitOn ',', trim bad ≠ [] ∧ Refuses (trim bad) e := by
  constructor
  · intro xs strs hwrites hlisted
    rw [parseList_eq_ok_iff, items_intercalate (hwrites.comma_notMem hlisted), hwrites.items_eq hlisted,
      List.forall₂_map_left_iff, List.forall₂_same]
    exact fun x hx => (hlisted x hx).denotes_text
  · intro text field hfield hne hbad
    cases hparse : parseList text with
    | ok xs =>
      have hitem := mem_items_iff.2 ⟨field, hfield, hne, rfl⟩
      obtain ⟨x, -, hx⟩ := Result.exists_of_forall₂ (parseList_eq_ok_iff.1 hparse).flip hitem
      exact absurd (denotes_trim.1 hx) (hbad x)
    | error e =>
      obtain ⟨item, hitem, herror⟩ := Result.exists_error_of_mapM hparse
      obtain ⟨bad, hbad, hne, rfl⟩ := mem_items_iff.1 hitem
      exact ⟨e, rfl, bad, hbad, hne, parseChars_eq_error_iff.1 herror⟩

/-- Two settings among blank items, and two items of which the second has no colon. -/
theorem parseList_exact_two :
    parseList " ,\ta:b.c.d:7,,\u3000x.y z:0 \n" = .ok [⟨"a:b", "c.d", 7⟩, ⟨"x", "y z", 0⟩] ∧
    ∃ e, parseList "x.y z:0, x.y z" = .error e := by
  constructor
  · have hblank {margin : String} (h : margin.toList.all isBlank) : ∀ c ∈ margin.toList, isBlank c :=
      List.all_eq_true.1 h
    have hwrites : Writes [⟨"a:b", "c.d", 7⟩, ⟨"x", "y z", 0⟩]
        [" ", "\t" ++ text ⟨"a:b", "c.d", 7⟩ ++ "", "", "\u3000" ++ text ⟨"x", "y z", 0⟩ ++ " \n"] :=
      .blank (hblank (by decide +kernel)) (.setting (hblank (by decide +kernel)) _ (hblank (by decide +kernel))
        (.blank (hblank (by decide +kernel))
          (.setting (hblank (by decide +kernel)) _ (hblank (by decide +kernel)) .nil)))
    have hlisted : ∀ x ∈ [(⟨"a:b", "c.d", 7⟩ : Setting), ⟨"x", "y z", 0⟩], x.IsListed := by decide +kernel
    have htext : ",".intercalate
        [" ", "\t" ++ text ⟨"a:b", "c.d", 7⟩ ++ "", "", "\u3000" ++ text ⟨"x", "y z", 0⟩ ++ " \n"] =
        " ,\ta:b.c.d:7,,\u3000x.y z:0 \n" := by decide +kernel
    rw [← htext]
    exact parseList_exact.1 _ _ hwrites hlisted
  · have hbad : ∀ x, ¬ Denotes " x.y z".toList x := by
      rintro x ⟨left, right, hcs, -⟩
      have hcolon : ':' ∉ " x.y z".toList := by decide +kernel
      exact hcolon (hcs ▸ List.mem_append_right _ List.mem_cons_self)
    obtain ⟨e, he, _⟩ := parseList_exact.2 "x.y z:0, x.y z" " x.y z".toList (by decide +kernel) (by decide +kernel) hbad
    exact ⟨e, he⟩

end Setting

end Conveyor
