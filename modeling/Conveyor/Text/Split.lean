-- SUMMARY: Cutting a text at a separator: at the first, at the last, or at every one; and trimming white space.

/-!
# Splitting and trimming

A text is cut at a separating character, which belongs to neither side. Putting the separator back
between the sides gives the text again. Settings and numerals are trimmed of every character that
has white space among its properties in the Unicode standard, and of the four information
separators, which count as blanks too.
-/

namespace Conveyor.Text

/-! ## Separators -/

/-- The sides of the first separator. -/
def splitFirst? (sep : Char) : List Char → Option (List Char × List Char)
  | [] => none
  | c :: cs =>
    if c = sep then some ([], cs)
    else (splitFirst? sep cs).map fun (left, right) => (c :: left, right)

/-- The sides of the last separator. -/
def splitLast? (sep : Char) : List Char → Option (List Char × List Char)
  | [] => none
  | c :: cs =>
    match splitLast? sep cs with
    | some (left, right) => some (c :: left, right)
    | none => if c = sep then some ([], cs) else none

/-- The texts between all separators. -/
def fields (sep : Char) : List Char → List (List Char)
  | [] => [[]]
  | c :: cs =>
    if c = sep then [] :: fields sep cs
    else
      match fields sep cs with
      | [] => [[c]]
      | f :: fs => (c :: f) :: fs

theorem eq_of_splitFirst? {sep : Char} {cs left right : List Char}
    (h : splitFirst? sep cs = some (left, right)) : cs = left ++ sep :: right ∧ sep ∉ left := by
  induction cs generalizing left with
  | nil => simp [splitFirst?] at h
  | cons c cs ih =>
    by_cases hc : c = sep
    · simp only [splitFirst?, if_pos hc, Option.some.injEq, Prod.mk.injEq] at h
      obtain ⟨rfl, rfl⟩ := h
      simp [hc]
    · simp only [splitFirst?, if_neg hc, Option.map_eq_some_iff, Prod.mk.injEq] at h
      obtain ⟨⟨l, r⟩, hr, rfl, rfl⟩ := h
      obtain ⟨rfl, hl⟩ := ih hr
      simp [Ne.symm hc, hl]

theorem splitLast?_eq_none_iff {sep : Char} {cs : List Char} :
    splitLast? sep cs = none ↔ sep ∉ cs := by
  induction cs with
  | nil => simp [splitLast?]
  | cons c cs ih =>
    cases h : splitLast? sep cs with
    | none =>
      by_cases hc : c = sep
      · simp [splitLast?, h, hc]
      · simp [splitLast?, h, hc, Ne.symm hc, ih.1 h]
    | some p =>
      have hmem : sep ∈ cs := Decidable.not_not.1 fun hn => by simp [ih.2 hn] at h
      simp [splitLast?, h, hmem]

theorem eq_of_splitLast? {sep : Char} {cs left right : List Char}
    (h : splitLast? sep cs = some (left, right)) : cs = left ++ sep :: right ∧ sep ∉ right := by
  induction cs generalizing left with
  | nil => simp [splitLast?] at h
  | cons c cs ih =>
    cases hs : splitLast? sep cs with
    | none =>
      by_cases hc : c = sep
      · simp only [splitLast?, hs, if_pos hc, Option.some.injEq, Prod.mk.injEq] at h
        obtain ⟨rfl, rfl⟩ := h
        simpa [hc] using splitLast?_eq_none_iff.1 hs
      · simp [splitLast?, hs, hc] at h
    | some p =>
      obtain ⟨l, r⟩ := p
      simp only [splitLast?, hs, Option.some.injEq, Prod.mk.injEq] at h
      obtain ⟨rfl, rfl⟩ := h
      obtain ⟨rfl, hr⟩ := ih hs
      exact ⟨rfl, hr⟩

/-! ## White space -/

/-- The blanks, as ranges of code points. -/
def blankRanges : List (Nat × Nat) :=
  [(0x0009, 0x000d), (0x001c, 0x0020), (0x0085, 0x0085), (0x00a0, 0x00a0), (0x1680, 0x1680),
   (0x2000, 0x200a), (0x2028, 0x2029), (0x202f, 0x202f), (0x205f, 0x205f), (0x3000, 0x3000)]

/-- White space of any script. -/
def isBlank (c : Char) : Bool :=
  blankRanges.any fun (low, high) => low ≤ c.toNat && c.toNat ≤ high

/-- What is left without the leading and the trailing characters that satisfy `p`. -/
def trimBy (p : Char → Bool) (cs : List Char) : List Char :=
  ((cs.dropWhile p).reverse.dropWhile p).reverse

/-- What is left without leading and trailing white space. -/
def trim (cs : List Char) : List Char := trimBy isBlank cs

end Conveyor.Text
