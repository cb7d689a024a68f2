-- SUMMARY: A countdown pass by pass: it ends, a quotient and a remainder say with what, and time may come in parts.
import Conveyor.Proofs.Clock
import Mathlib.Algebra.Order.BigOperators.Group.List
import Mathlib.Algebra.Order.Ring.Int

/-!
# Countdowns pass by pass

Time may be passed on step by step: whole periods at once where a countdown is full, else one boundary,
else what is left before it. Such a pass does not always shorten the time that is left, and a boundary
alone may be crossed before or after a bulk of periods. What every pass lowers is the number of passes
that can still follow, of which there are at most three, so that the passes end, whatever the numbers.
They end with what `advance` gives at once.
-/

namespace Conveyor.Clock

/-- A countdown under way: the boundaries crossed so far, the ticks left until the next, and the time still
to pass. -/
structure Countdown where
  cycles : Int
  next : Int
  ticks : Int
deriving Repr, DecidableEq

namespace Countdown

variable {period : Int} {c c' : Countdown}

/-! ## Passes -/

/-- One pass: whole periods at once, else the next boundary alone, else the time that is left before it. -/
def pass (period : Int) (c : Countdown) : Except Fault Countdown :=
  if c.next = period ∧ period ≤ c.ticks then
    if period = 0 then .error .divisionByZero
    else .ok { c with cycles := c.cycles + c.ticks.fdiv period, ticks := c.ticks.fmod period }
  else if c.next ≤ c.ticks then .ok { cycles := c.cycles + 1, next := period, ticks := c.ticks - c.next }
  else .ok { c with next := c.next - c.ticks, ticks := 0 }

/-- How many passes can still follow. -/
def passesLeft (period : Int) (c : Countdown) : Nat :=
  if c.ticks ≤ 0 then 0
  else if c.next ≠ period then 3
  else if period ≤ c.ticks then 2
  else 1

/-- The rest of a division is below the period, or not above zero where the period is not. -/
theorem fmod_lt_or_nonpos (n : Int) (h : period ≠ 0) : n.fmod period < period ∨ n.fmod period ≤ 0 := by
  rcases lt_or_gt_of_ne h with hneg | hpos
  · have hnonneg := Int.fmod_nonneg_of_pos (-n) (by omega : 0 < -period)
    rw [Int.neg_fmod_neg] at hnonneg
    exact Or.inr (by omega)
  · exact Or.inl (Int.fmod_lt_of_pos _ hpos)

theorem passesLeft_lt (hticks : 0 < c.ticks) (h : c.pass period = .ok c') : c'.passesLeft period < c.passesLeft period := by
  unfold pass at h
  split at h
  next hbulk =>
    split at h
    · cases h
    next hzero =>
      obtain rfl := Except.ok.inj h
      have hrest := fmod_lt_or_nonpos c.ticks hzero
      simp only [passesLeft]
      grind
  next hbulk =>
    split at h
    · obtain rfl := Except.ok.inj h
      simp only [passesLeft]
      grind
    · obtain rfl := Except.ok.inj h
      simp only [passesLeft]
      grind

/-- Passes until no time is left: the boundaries crossed, and the ticks left until the next. -/
def run (period : Int) (c : Countdown) : Except Fault (Int × Int) :=
  if _ : 0 < c.ticks then
    match _ : c.pass period with
    | .ok c' => c'.run period
    | .error fault => .error fault
  else .ok (c.cycles, c.next)
termination_by c.passesLeft period
decreasing_by exact passesLeft_lt ‹_› ‹_›

theorem run_of_nonpos (h : c.ticks ≤ 0) : c.run period = .ok (c.cycles, c.next) := by
  unfold run
  rw [dif_neg (by omega)]

theorem run_of_pass (hticks : 0 < c.ticks) (h : c.pass period = .ok c') : c.run period = c'.run period := by
  rw [run, dif_pos hticks]
  split
  next heq => rw [Except.ok.inj (heq.symm.trans h)]
  next heq => cases heq.symm.trans h

theorem run_of_error {fault : Fault} (hticks : 0 < c.ticks) (h : c.pass period = .error fault) :
    c.run period = .error fault := by
  rw [run, dif_pos hticks]
  split
  next heq => cases heq.symm.trans h
  next heq => rw [Except.error.inj (heq.symm.trans h)]

/-! ## All passes at once -/

/-- A countdown that is short of its boundary runs out there. -/
theorem run_of_lt (hticks : 0 < c.ticks) (hlt : c.ticks < c.next) :
    c.run period = .ok (c.cycles, c.next - c.ticks) := by
  have hpass : c.pass period = .ok { c with next := c.next - c.ticks, ticks := 0 } := by
    unfold pass
    rw [if_neg (by omega), if_neg (by omega)]
  rw [run_of_pass hticks hpass, run_of_nonpos (le_refl 0)]

/-- A full countdown divides the time by the period. -/
theorem run_full (hticks : 0 < c.ticks) (hfull : c.next = period) :
    c.run period = (fromBoundary period c.ticks).map fun (count, left) => (c.cycles + count, left) := by
  unfold fromBoundary
  split
  next hlt =>
    rw [run_of_lt hticks (by omega), hfull]
    exact congrArg (fun count => Except.ok (count, period - c.ticks)) (Int.add_zero _).symm
  next hge =>
    have hbulk : c.next = period ∧ period ≤ c.ticks := ⟨hfull, by omega⟩
    split
    next hzero =>
      refine run_of_error hticks ?_
      unfold pass
      rw [if_pos hbulk, if_pos hzero]
    next hzero =>
      have hpass : c.pass period =
          .ok { c with cycles := c.cycles + c.ticks.fdiv period, ticks := c.ticks.fmod period } := by
        unfold pass
        rw [if_pos hbulk, if_neg hzero]
      rw [run_of_pass hticks hpass]
      simp only
      split
      next hrest =>
        -- Time that is left after whole periods is short of another one.
        have hlt := fmod_lt_or_nonpos c.ticks hzero
        rw [run_of_lt hrest (by simp only; omega), hfull]
        rfl
      next hrest =>
        rw [run_of_nonpos (by simp only; omega), hfull]
        rfl

/-- The passes end with what `advance` says, whatever the numbers, also where there is no period to divide by. -/
theorem run_eq_advance (period : Int) (c : Countdown) :
    c.run period = (advance c.next period c.ticks).map fun (count, left) => (c.cycles + count, left) := by
  unfold advance
  split
  next hnone =>
    rw [run_of_nonpos hnone]
    exact congrArg (fun count => Except.ok (count, c.next)) (Int.add_zero _).symm
  split
  next hfull => exact run_full (by omega) hfull
  split
  next hlt =>
    rw [run_of_lt (by omega) hlt]
    exact congrArg (fun count => Except.ok (count, c.next - c.ticks)) (Int.add_zero _).symm
  next hticks hfull hlt =>
    have hpass : c.pass period = .ok { cycles := c.cycles + 1, next := period, ticks := c.ticks - c.next } := by
      unfold pass
      rw [if_neg (by omega), if_pos (by omega)]
    rw [run_of_pass (by omega) hpass]
    split
    next hnone => exact run_of_nonpos hnone
    next hrest =>
      have hleft : 0 < c.ticks - c.next := Int.not_le.1 hrest
      rw [run_full (c := ⟨c.cycles + 1, period, c.ticks - c.next⟩) hleft rfl]
      cases fromBoundary period (c.ticks - c.next) with
      | error fault => rfl
      | ok crossed =>
        have hsum : c.cycles + 1 + crossed.1 = c.cycles + (crossed.1 + 1) := by omega
        exact congrArg (fun count => Except.ok (count, crossed.2)) hsum

end Countdown

/-! ## Time in parts -/

/-- Time passed part after part: the boundaries crossed in all, and the ticks left until the next. -/
def advanceEach (next period : Int) : List Int → Except Fault (Int × Int)
  | [] => .ok (0, next)
  | ticks :: rest => do
    let (count, left) ← advance next period ticks
    let (count', left') ← advanceEach left period rest
    return (count + count', left')

variable {next period ticks : Int}

/-- Parts cross the boundaries that the whole crosses, and leave the same countdown. -/
theorem advanceEach_eq_advance_sum (hnext : 1 ≤ next) (hle : next ≤ period) {parts : List Int}
    (hparts : ∀ t ∈ parts, 0 ≤ t) : advanceEach next period parts = advance next period parts.sum := by
  induction parts generalizing next with
  | nil => exact (if_pos (le_refl 0)).symm
  | cons t rest ih =>
    have ht := hparts t List.mem_cons_self
    have hrest : ∀ u ∈ rest, 0 ≤ u := fun u hu => hparts u (List.mem_cons_of_mem t hu)
    have hfirst := advance_eq_ok hnext hle ht
    obtain ⟨hlow, hhigh⟩ := advance_range hnext hle ht hfirst
    have hsecond := advance_eq_ok hlow hhigh (List.sum_nonneg hrest)
    rw [List.sum_cons, advance_add hnext hle ht (List.sum_nonneg hrest) hfirst hsecond, advanceEach, hfirst]
    simp only [bind, Except.bind]
    rw [ih hlow hhigh hrest, hsecond]
    rfl

/-- A countdown is a quotient and a remainder: the passes end with them, what is left is a countdown of the
same period again, and it does not matter in which parts the time comes. -/
theorem countdown_by_division (hnext : 1 ≤ next) (hle : next ≤ period) (ht : 0 ≤ ticks) :
    let count := (period - next + ticks) / period
    let left := period - (period - next + ticks) % period
    Countdown.run period ⟨0, next, ticks⟩ = .ok (count, left) ∧ advance next period ticks = .ok (count, left) ∧
      1 ≤ left ∧ left ≤ period ∧
      ∀ parts : List Int, (∀ t ∈ parts, 0 ≤ t) → parts.sum = ticks → advanceEach next period parts = .ok (count, left) := by
  have hwhole := advance_eq_ok hnext hle ht
  have hrange := advance_range hnext hle ht hwhole
  refine ⟨?_, hwhole, hrange.1, hrange.2, fun parts hparts hsum => ?_⟩
  · rw [Countdown.run_eq_advance, hwhole]
    exact congrArg (fun count => Except.ok (count, _)) (Int.zero_add _)
  · rw [advanceEach_eq_advance_sum hnext hle hparts, hsum, hwhole]

/-- A countdown with 3 ticks to go, over 5: of 13 ticks, 3 cross one boundary and 10 two more, and the countdown
is full again; passed as 8, none and 5 they do the same. -/
theorem countdown_by_division_three_of_five :
    (1 : Int) ≤ 3 ∧ (3 : Int) ≤ 5 ∧ (0 : Int) ≤ 13 ∧ Countdown.run 5 ⟨0, 3, 13⟩ = .ok (3, 5) ∧
      advanceEach 3 5 [8, 0, 5] = .ok (3, 5) := by
  obtain ⟨hrun, -, -, -, hparts⟩ := @countdown_by_division 3 5 13 (by decide) (by decide) (by decide)
  exact ⟨by decide, by decide, by decide, hrun, hparts [8, 0, 5] (by decide) (by decide)⟩

end Conveyor.Clock
