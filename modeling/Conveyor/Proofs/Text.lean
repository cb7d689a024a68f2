-- SUMMARY: What cutting, trimming and reading numerals make of a text, said of the text that is put together again.
import Conveyor.Text.Numeral
import Mathlib.Algebra.Group.Nat.Defs
import Mathlib.Data.List.DropRight

/-!
# Texts taken apart

A separator cuts a text in one way only: at the first place where it stands, at the last, or at every
one. Trimming is undone by white space around what is left, and reading a numeral by its digits.
-/

namespace Conveyor.Text

variable {sep c : Char} {cs left right pre post : List Char} {p : Char → Bool}

/-! ## Cutting -/

theorem splitFirst?_append (h : sep ∉ left) : splitFirst? sep (left ++ sep :: right) = some (left, right) := by
  induction left with
  | nil => exact if_pos rfl
  | cons c left ih =>
    obtain ⟨hc, hleft⟩ := not_or.1 (List.mem_cons.not.1 h)
    rw [List.cons_append, splitFirst?, if_neg (Ne.symm hc), ih hleft]
    rfl

theorem splitLast?_append (h : sep ∉ right) : splitLast? sep (left ++ sep :: right) = some (left, right) := by
  induction left with
  | nil => rw [List.nil_append, splitLast?, splitLast?_eq_none_iff.2 h, if_pos rfl]
  | cons c left ih => rw [List.cons_append, splitLast?, ih]

/-- There is one last separator. -/
theorem sides_of_append_eq {left' right' : List Char} (hcs : left ++ sep :: right = left' ++ sep :: right')
    (h : sep ∉ right) (h' : sep ∉ right') : left = left' ∧ right = right' := by
  have hsides : splitLast? sep (left ++ sep :: right) = some (left, right) := splitLast?_append h
  rw [hcs, splitLast?_append h'] at hsides
  obtain ⟨rfl, rfl⟩ := Prod.mk.inj (Option.some.inj hsides)
  exact ⟨rfl, rfl⟩

theorem fields_eq_splitOn (sep : Char) (cs : List Char) : fields sep cs = cs.splitOn sep := by
  induction cs with
  | nil => rfl
  | cons c cs ih =>
    rw [fields, ih, List.splitOn_cons_eq_if_modifyHead]
    simp only [beq_iff_eq]
    split
    · rfl
    · cases h : cs.splitOn sep with
      | nil => exact absurd h (List.splitOn_ne_nil _ _)
      | cons f fs => rfl

/-! ## Trimming -/

theorem trimBy_eq (p : Char → Bool) (cs : List Char) : trimBy p cs = (cs.dropWhile p).rdropWhile p := rfl

/-- What was trimmed off is around what is left. -/
theorem exists_margins (p : Char → Bool) (cs : List Char) :
    ∃ pre post, cs = pre ++ trimBy p cs ++ post ∧ (∀ c ∈ pre, p c) ∧ ∀ c ∈ post, p c := by
  refine ⟨cs.takeWhile p, (cs.dropWhile p).rtakeWhile p, ?_, fun c => List.mem_takeWhile_imp, fun c => List.mem_rtakeWhile_imp⟩
  rw [trimBy_eq, List.append_assoc, List.rdropWhile_append_rtakeWhile, List.takeWhile_append_dropWhile]

theorem trimBy_append_left (hpre : ∀ c ∈ pre, p c) : trimBy p (pre ++ cs) = trimBy p cs := by
  rw [trimBy_eq, trimBy_eq, List.dropWhile_append_of_pos hpre]

theorem trimBy_append_right (hpost : ∀ c ∈ post, p c) : trimBy p (cs ++ post) = trimBy p cs := by
  have hright (xs : List Char) : (xs ++ post).rdropWhile p = xs.rdropWhile p := by
    rw [List.rdropWhile, List.reverse_append, List.dropWhile_append_of_pos (by simpa using hpost)]
    rfl
  rw [trimBy_eq, trimBy_eq, List.dropWhile_append]
  split
  -- if all of the text goes from the left, so does all that follows it
  next hnone =>
    rw [List.isEmpty_iff.1 hnone, ← hright [], List.nil_append, List.dropWhile_eq_nil_iff.2 hpost]
    exact (hright []).symm
  next => exact hright _

/-- What is around a text is trimmed off with its own margins. -/
theorem trimBy_append (hpre : ∀ c ∈ pre, p c) (hpost : ∀ c ∈ post, p c) :
    trimBy p (pre ++ cs ++ post) = trimBy p cs :=
  (trimBy_append_right hpost).trans (trimBy_append_left hpre)

theorem trimBy_eq_nil_iff : trimBy p cs = [] ↔ ∀ c ∈ cs, p c := by
  rw [trimBy_eq, List.rdropWhile_eq_nil_iff]
  constructor
  · intro h
    have hall : ∀ c ∈ cs.takeWhile p ++ cs.dropWhile p, p c := by
      intro c hc
      exact (List.mem_append.1 hc).elim List.mem_takeWhile_imp (h c)
    rwa [List.takeWhile_append_dropWhile] at hall
  · exact fun h c hc => h c ((List.dropWhile_sublist p).subset hc)

theorem trimBy_eq_self_iff : trimBy p cs = cs ↔ cs.dropWhile p = cs ∧ cs.rdropWhile p = cs := by
  constructor
  · intro h
    have hle := (List.rdropWhile_prefix p (l := cs.dropWhile p)).length_le
    rw [← trimBy_eq, h] at hle
    have hdrop := (List.dropWhile_suffix p).eq_of_length_le hle
    refine ⟨hdrop, ?_⟩
    rwa [trimBy_eq, hdrop] at h
  · rintro ⟨hdrop, hrdrop⟩
    rw [trimBy_eq, hdrop, hrdrop]

theorem trimBy_eq_self (h : ∀ c ∈ cs, ¬ p c) : trimBy p cs = cs :=
  trimBy_eq_self_iff.2 ⟨List.dropWhile_eq_self_iff.2 fun hl => h _ (List.getElem_mem hl),
    List.rdropWhile_eq_self_iff.2 fun hl => h _ (List.getLast_mem hl)⟩

/-- Two trimmed texts that are not empty leave nothing to trim, whatever stands between them. -/
theorem trimBy_between (hleft : trimBy p left = left) (hright : trimBy p right = right) (hl : left ≠ [])
    (hr : right ≠ []) : trimBy p (left ++ cs ++ right) = left ++ cs ++ right := by
  obtain ⟨hdrop, _⟩ := trimBy_eq_self_iff.1 hleft
  obtain ⟨_, hrdrop⟩ := trimBy_eq_self_iff.1 hright
  refine trimBy_eq_self_iff.2 ⟨?_, ?_⟩
  · rw [List.append_assoc, List.dropWhile_append, hdrop, if_neg (by simpa using hl)]
  · have hreverse : right.reverse.dropWhile p = right.reverse := by
      rw [← hrdrop, List.rdropWhile, List.reverse_reverse, List.dropWhile_idempotent]
    rw [List.rdropWhile, List.reverse_append, List.dropWhile_append, hreverse, if_neg (by simpa using hr),
      ← List.reverse_append, List.reverse_reverse]

/-- What is trimmed has nothing left to trim. -/
theorem trimBy_trimBy (p : Char → Bool) (cs : List Char) : trimBy p (trimBy p cs) = trimBy p cs := by
  obtain ⟨pre, post, hcs, hpre, hpost⟩ := exists_margins p cs
  conv_rhs => rw [hcs]
  exact (trimBy_append hpre hpost).symm

theorem mem_of_mem_trimBy (h : c ∈ trimBy p cs) : c ∈ cs := by
  obtain ⟨pre, post, hcs, _⟩ := exists_margins p cs
  rw [hcs]
  exact List.mem_append_left _ (List.mem_append_right _ h)

theorem trim_trim (cs : List Char) : trim (trim cs) = trim cs := trimBy_trimBy isBlank cs

/-- Blanks are no separators. -/
theorem not_mem_of_isBlank (hsep : ¬ isBlank sep) (h : ∀ c ∈ cs, isBlank c) : sep ∉ cs := fun hmem => hsep (h sep hmem)

/-! ## Numerals -/

namespace Numeral

/-- The value of an ASCII digit. -/
def asciiValue (c : Char) : Nat := c.toNat - '0'.toNat

theorem digit_range (h : c.isDigit) : 48 ≤ c.toNat ∧ c.toNat ≤ 57 := Char.isDigit_iff_toNat.1 h

theorem digitValue?_of_isDigit (h : c.isDigit) : digitValue? c = some (asciiValue c) := by
  have hrange := digit_range h
  have hfirst : zeroDigits.find? (fun z => z ≤ c.toNat && c.toNat < z + 10) = some 0x30 := by
    rw [zeroDigits, List.find?_cons_of_pos]
    simp only [Bool.and_eq_true, decide_eq_true_eq]
    omega
  rw [digitValue?, hfirst]
  rfl

theorem moreDigits?_of_isDigit (h : ∀ c ∈ cs, c.isDigit) : moreDigits? cs = some (cs.map asciiValue) := by
  induction cs with
  | nil => rfl
  | cons c cs ih =>
    obtain ⟨hc, hcs⟩ := List.forall_mem_cons.1 h
    have hunderscore : c ≠ '_' := by rintro rfl; exact absurd hc (by decide)
    rw [moreDigits?, digitValue?_of_isDigit hc, ih hcs]
    · rfl
    · exact hunderscore

theorem digits?_of_isDigit (h : ∀ c ∈ cs, c.isDigit) (hne : cs ≠ []) : digits? cs = some (cs.map asciiValue) := by
  cases cs with
  | nil => exact absurd rfl hne
  | cons c cs =>
    obtain ⟨hc, hcs⟩ := List.forall_mem_cons.1 h
    rw [digits?, digitValue?_of_isDigit hc, moreDigits?_of_isDigit hcs]
    rfl

theorem isWritable_iff {n : Int} : IsWritable n ↔ n.natAbs < 10 ^ digitLimit := by
  unfold IsWritable
  generalize digitLimit = most
  exact Iff.rfl

theorem isDigit_of_mem_toDigits {n : Nat} (h : c ∈ Nat.toDigits 10 n) : c.isDigit :=
  Nat.isDigit_of_mem_toDigits (by decide) (by decide) h

/-- A number is read back from its digits. -/
theorem natural?_toDigits {n : Nat} (h : n < 10 ^ digitLimit) : natural? (Nat.toDigits 10 n) = some n := by
  have hlength : (Nat.toDigits 10 n).length ≤ digitLimit :=
    (Nat.length_toDigits_le_iff (by decide) (by decide)).2 h
  have hvalue : value ((Nat.toDigits 10 n).map asciiValue) = Nat.ofDigitChars 10 (Nat.toDigits 10 n) 0 :=
    List.foldl_map
  rw [natural?, digits?_of_isDigit (fun _ => isDigit_of_mem_toDigits) Nat.toDigits_ne_nil]
  change (if ((Nat.toDigits 10 n).map asciiValue).length ≤ digitLimit then _ else none) = _
  rw [List.length_map, if_pos hlength, hvalue, Nat.ofDigitChars_toDigits (by decide) (by decide)]

theorem not_isBlank_of_isDigit (h : c.isDigit) : ¬ isBlank c := by
  have hrange := digit_range h
  simp only [isBlank, blankRanges, List.any_cons, List.any_nil, Bool.or_false, Bool.or_eq_true,
    Bool.and_eq_true, decide_eq_true_eq]
  omega

/-- No digit is trimmed off a number. -/
theorem trim_toDigits (n : Nat) : trim (Nat.toDigits 10 n) = Nat.toDigits 10 n :=
  trimBy_eq_self fun _ hc => not_isBlank_of_isDigit (isDigit_of_mem_toDigits hc)

theorem isBlank_of_isMargin (h : isMargin c) : isBlank c := (Bool.and_eq_true_iff.1 h).1

theorem signed?_of_isDigit (h : c.isDigit) : signed? (c :: cs) = (natural? (c :: cs)).map fun n => (n : Int) := by
  unfold signed?
  split
  next heq => cases heq; exact absurd h (by decide)
  next heq => cases heq; exact absurd h (by decide)
  next => rfl

theorem parse?_toDigits {n : Nat} (h : n < 10 ^ digitLimit) : parse? (Nat.toDigits 10 n) = some (n : Int) := by
  have hdigits : ∀ c ∈ Nat.toDigits 10 n, c.isDigit := fun _ => isDigit_of_mem_toDigits
  rw [parse?, trimBy_eq_self fun c hc hmargin => not_isBlank_of_isDigit (hdigits c hc) (isBlank_of_isMargin hmargin)]
  have hread := natural?_toDigits h
  cases hcs : Nat.toDigits 10 n with
  | nil => exact absurd hcs Nat.toDigits_ne_nil
  | cons c cs =>
    rw [hcs] at hdigits hread
    rw [signed?_of_isDigit (hdigits c List.mem_cons_self), hread]
    rfl

theorem digitValue?_lt {d : Nat} (h : digitValue? c = some d) : d < 10 := by
  obtain ⟨z, hz, rfl⟩ := Option.map_eq_some_iff.1 h
  have hrange := List.find?_some hz
  simp only [Bool.and_eq_true, decide_eq_true_eq] at hrange
  omega

/-- Digits of all scripts have values below ten. The two readers call each other, so both are followed
through the text at once. -/
theorem digits_lt (cs : List Char) :
    (∀ ds, digits? cs = some ds → ∀ d ∈ ds, d < 10) ∧ ∀ ds, moreDigits? cs = some ds → ∀ d ∈ ds, d < 10 := by
  induction cs with
  | nil =>
    refine ⟨fun ds h => ?_, fun ds h => ?_⟩
    · rw [digits?] at h
      cases h
    · obtain rfl := Option.some.inj h
      exact fun _ hd => nomatch hd
  | cons c cs ih =>
    have hcons : ∀ ds, (do let d ← digitValue? c; let ds ← moreDigits? cs; return d :: ds) = some ds →
        ∀ d ∈ ds, d < 10 := by
      intro ds h
      obtain ⟨d, hd, h⟩ := Option.bind_eq_some_iff.1 h
      obtain ⟨rest, hrest, h⟩ := Option.bind_eq_some_iff.1 h
      obtain rfl := Option.some.inj h
      exact List.forall_mem_cons.2 ⟨digitValue?_lt hd, ih.2 rest hrest⟩
    refine ⟨fun ds h => hcons ds (by rwa [digits?] at h), fun ds h => ?_⟩
    unfold moreDigits? at h
    split at h
    next heq => cases heq
    next heq => cases heq; exact ih.1 ds h
    next heq => cases heq; exact hcons ds h

theorem value_lt {ds : List Nat} (h : ∀ d ∈ ds, d < 10) : value ds < 10 ^ ds.length := by
  induction ds using List.reverseRecOn with
  | nil => exact Nat.one_pos
  | append_singleton ds d ih =>
    have hlast := h d (List.mem_append_right _ List.mem_cons_self)
    have hrest := ih fun e he => h e (List.mem_append_left _ he)
    have hvalue : value (ds ++ [d]) = 10 * value ds + d := List.foldl_append
    rw [hvalue, List.length_append, List.length_singleton, Nat.pow_succ]
    omega

theorem natural?_lt {n : Nat} (h : natural? cs = some n) : n < 10 ^ digitLimit := by
  obtain ⟨ds, hds, h⟩ := Option.bind_eq_some_iff.1 h
  split at h
  next hlength =>
    obtain rfl := Option.some.inj h
    exact (value_lt ((digits_lt cs).1 ds hds)).trans_le (Nat.pow_le_pow_right (by decide) hlength)
  next => cases h

/-- What is read has few enough digits to be written. -/
theorem isWritable_of_parse? {n : Int} (h : parse? cs = some n) : IsWritable n := by
  have hread : ∃ (digits : List Char) (m : Nat), natural? digits = some m ∧ n.natAbs = m := by
    unfold parse? signed? at h
    split at h <;> obtain ⟨_, hcast, rfl⟩ := Option.map_eq_some_iff.1 h <;>
      obtain ⟨m, hm, hcast⟩ := Option.bind_eq_some_iff.1 hcast <;> obtain rfl := Option.some.inj hcast
    · exact ⟨_, m, hm, rfl⟩
    · exact ⟨_, m, hm, Int.natAbs_neg _⟩
    · exact ⟨_, m, hm, rfl⟩
  obtain ⟨digits, m, hm, habs⟩ := hread
  rw [isWritable_iff, habs]
  exact natural?_lt hm

end Numeral

end Conveyor.Text
