-- SUMMARY: Stock between a leaf and its only taker: what boundary after boundary leaves of it, and how far it lasts.
import Mathlib.Tactic.Linarith
import Mathlib.Tactic.Positivity
import Mathlib.Tactic.Ring

/-!
# Reserves

A leaf fills its buffer cycle by cycle and stalls when it is full; its taker empties it turn by turn, as
far as it has room. Once the taker has been full, it has enough for as many cycles as it can hold. Until
then nothing is left behind, and what was drawn can be counted in cycles of the leaf: all that it made
or, if its buffer is full each time, a buffer for each turn.
-/

namespace Conveyor

/-! ## Pace -/

/-- Cycles' worth of a leaf that so many turns of its taker draw, if each draws all there is: what the
leaf has made by then or, where the taker comes too seldom, a buffer of `m` cycles each time. -/
def fillings (m period leafPeriod turns : Nat) : Nat :=
  if period ≤ m * leafPeriod then turns * period / leafPeriod else m * turns

/-- A leaf yields a product at least as fast as its taker needs it, `lead` turns are enough for a cycle
of the leaf, and `k + lead` fillings of its buffer are enough for `k` cycles. -/
structure Pace (m k lead period leafPeriod : Nat) (need yield : Int) : Prop where
  leaf_pos : 0 < leafPeriod
  need_pos : 0 < need
  rate : need * leafPeriod ≤ yield * period
  leads : leafPeriod ≤ lead * period
  fills : k * need ≤ (k + lead) * (m * yield)

variable {m k lead period leafPeriod turns n : Nat} {need yield : Int}

/-- One turn more draws what the leaf has made since, or a whole buffer of it. -/
theorem fillings_succ (hpos : 0 < leafPeriod) {e g : Nat}
    (he : e = m ∨ (turns + 1) * period / leafPeriod ≤ e + turns * period / leafPeriod) (hle : e ≤ m)
    (hg : fillings m period leafPeriod turns ≤ g) : fillings m period leafPeriod (turns + 1) ≤ g + e := by
  have hsucc : (turns + 1) * period = turns * period + period := Nat.succ_mul turns period
  have hadd : (turns * period + m * leafPeriod) / leafPeriod = turns * period / leafPeriod + m :=
    Nat.add_mul_div_right _ _ hpos
  unfold fillings at hg ⊢
  split at hg
  next hoften =>
    rw [if_pos hoften]
    have hgain : (turns + 1) * period / leafPeriod ≤ turns * period / leafPeriod + m :=
      hadd ▸ Nat.div_le_div_right (by omega)
    omega
  next hseldom =>
    rw [if_neg hseldom]
    have hgain : turns * period / leafPeriod + m ≤ (turns + 1) * period / leafPeriod :=
      hadd ▸ Nat.div_le_div_right (by omega)
    have hm : m * (turns + 1) = m * turns + m := Nat.mul_succ m turns
    omega

namespace Pace

theorem yield_pos (h : Pace m k lead period leafPeriod need yield) : 0 < yield := by
  have hneed := h.need_pos
  have hleaf : (0 : Int) < leafPeriod := Int.natCast_pos.2 h.leaf_pos
  have hdemand : 0 < yield * period := Int.lt_of_lt_of_le (Int.mul_pos hneed hleaf) h.rate
  exact pos_of_mul_pos_left hdemand (Int.natCast_nonneg period)

/-- After `lead` turns more than `n` there is enough for `n` cycles. -/
theorem enough (h : Pace m k lead period leafPeriod need yield) (hn : n ≤ k) {g : Nat}
    (hg : fillings m period leafPeriod (n + lead) ≤ g) : n * need ≤ g * yield := by
  have hyield := h.yield_pos
  unfold fillings at hg
  split at hg
  next =>
    -- Rounding down loses less than one cycle of the leaf, and that is what the lead is for.
    have hrounded : (n + lead) * period < leafPeriod * (g + 1) := by
      refine Nat.lt_of_lt_of_le (Nat.lt_mul_div_succ _ h.leaf_pos) ?_
      exact Nat.mul_le_mul_left _ (Nat.succ_le_succ hg)
    have hmade : n * period ≤ leafPeriod * g := by
      have hlead := h.leads
      rw [Nat.add_mul] at hrounded
      rw [Nat.mul_succ] at hrounded
      omega
    have hleaf : (0 : Int) < leafPeriod := Int.natCast_pos.2 h.leaf_pos
    have hmade' : (n : Int) * period ≤ leafPeriod * g := by exact_mod_cast hmade
    refine le_of_mul_le_mul_right ?_ hleaf
    calc n * need * leafPeriod = n * (need * leafPeriod) := by ring
      _ ≤ n * (yield * period) := mul_le_mul_of_nonneg_left h.rate (Int.natCast_nonneg n)
      _ = n * period * yield := by ring
      _ ≤ leafPeriod * g * yield := mul_le_mul_of_nonneg_right hmade' hyield.le
      _ = g * yield * leafPeriod := by ring
  next =>
    have hdrawn : (m : Int) * (n + lead) ≤ g := by exact_mod_cast hg
    have hall : n * need ≤ m * (n + lead) * yield := by
      have hfills := h.fills
      have hn' : (n : Int) ≤ k := by exact_mod_cast hn
      cases Int.le_total need (m * yield) with
      | inl hle =>
        have hlead : 0 ≤ (lead : Int) * (m * yield) := by positivity
        nlinarith [mul_le_mul_of_nonneg_left hle (Int.natCast_nonneg n)]
      | inr hle => nlinarith [mul_le_mul_of_nonneg_right hn' (Int.sub_nonneg.2 hle)]
    exact hall.trans (mul_le_mul_of_nonneg_right hdrawn hyield.le)

end Pace

/-! ## Reserves -/

/-- What the taker holds of a product, and what its leaf does, after so many ticks of each and `c` cycles
of the taker: either the taker had as much as it can hold, or it has drawn everything so far, `g` cycles'
worth of the leaf, and the leaf has made `e` since, as many as fit. -/
inductive Reserve (m period leafPeriod : Nat) (need yield : Int) (age leafAge c : Nat) (taken left : Int) : Prop
  | full (had : m * need ≤ taken + c * need) (nonneg : 0 ≤ left)
  | drawn (e g : Nat) (left_eq : left = e * yield) (taken_eq : taken + c * need = g * yield) (le : e ≤ m)
      (made : e = m ∨ leafAge / leafPeriod ≤ e + age / period * period / leafPeriod)
      (fillings_le : fillings m period leafPeriod (age / period) ≤ g)

namespace Reserve

variable {age leafAge c : Nat} {taken left : Int}

theorem start (need yield : Int) : Reserve m period leafPeriod need yield 0 0 0 0 0 := by
  refine .drawn 0 0 (by simp) (by simp) (Nat.zero_le m) (.inr (by simp)) ?_
  simp [fillings]

theorem left_nonneg (h : Reserve m period leafPeriod need yield age leafAge c taken left) (hyield : 0 < yield) :
    0 ≤ left := by
  cases h with
  | full _ nonneg => exact nonneg
  | drawn e g left_eq => exact left_eq ▸ by positivity

/-- Between its boundaries the leaf makes nothing. -/
theorem leaf_waits (h : Reserve m period leafPeriod need yield age leafAge c taken left)
    (hbetween : ¬ leafPeriod ∣ leafAge + 1) :
    Reserve m period leafPeriod need yield age (leafAge + 1) c taken left := by
  have hsame : (leafAge + 1) / leafPeriod = leafAge / leafPeriod := by
    rw [Nat.succ_div, if_neg hbetween, Nat.add_zero]
  cases h with
  | full had nonneg => exact .full had nonneg
  | drawn e g left_eq taken_eq le made fillings_le =>
    exact .drawn e g left_eq taken_eq le (hsame.symm ▸ made) fillings_le

theorem leaf_runs (h : Reserve m period leafPeriod need yield age leafAge c taken left) (hyield : 0 < yield)
    (hboundary : leafPeriod ∣ leafAge + 1) (hroom : left + yield ≤ m * yield) :
    Reserve m period leafPeriod need yield age (leafAge + 1) c taken (left + yield) := by
  cases h with
  | full had nonneg => exact .full had (by omega)
  | drawn e g left_eq taken_eq le made fillings_le =>
    have hlt : e + 1 ≤ m := by
      have hle : ((e + 1 : Nat) : Int) * yield ≤ m * yield := by
        rw [Nat.cast_succ, Int.add_mul, Int.one_mul, ← left_eq]
        exact hroom
      exact_mod_cast le_of_mul_le_mul_right hle hyield
    refine .drawn (e + 1) g ?_ taken_eq hlt (.inr ?_) fillings_le
    · rw [left_eq, Nat.cast_succ, Int.add_mul, Int.one_mul]
    · rw [Nat.succ_div, if_pos hboundary]
      omega

/-- A leaf whose buffer is full makes nothing more. -/
theorem leaf_stalls (h : Reserve m period leafPeriod need yield age leafAge c taken left) (hyield : 0 < yield)
    (hroom : m * yield < left + yield) : Reserve m period leafPeriod need yield age (leafAge + 1) c taken left := by
  cases h with
  | full had nonneg => exact .full had nonneg
  | drawn e g left_eq taken_eq le made fillings_le =>
    have hlt : m < e + 1 := by
      have hlt : (m : Int) * yield < ((e + 1 : Nat) : Int) * yield := by
        rw [Nat.cast_succ, Int.add_mul, Int.one_mul, ← left_eq]
        exact hroom
      exact_mod_cast lt_of_mul_lt_mul_right hlt hyield.le
    exact .drawn e g left_eq taken_eq le (.inl (by omega)) fillings_le

/-- Between its boundaries the taker draws nothing. -/
theorem waits (h : Reserve m period leafPeriod need yield age leafAge c taken left)
    (hbetween : ¬ period ∣ age + 1) :
    Reserve m period leafPeriod need yield (age + 1) leafAge c taken left := by
  have hsame : (age + 1) / period = age / period := by
    rw [Nat.succ_div, if_neg hbetween, Nat.add_zero]
  cases h with
  | full had nonneg => exact .full had nonneg
  | drawn e g left_eq taken_eq le made fillings_le =>
    exact .drawn e g left_eq taken_eq le (hsame.symm ▸ made) (hsame.symm ▸ fillings_le)

/-- At its boundary the taker draws all that the leaf has, or all that it has room for. -/
theorem draws (h : Reserve m period leafPeriod need yield age (age + 1) c taken left)
    (hpace : Pace m k lead period leafPeriod need yield) (hboundary : period ∣ age + 1) {moved : Int}
    (hmoved : moved = min left (m * need - taken)) :
    Reserve m period leafPeriod need yield (age + 1) (age + 1) c (taken + moved) (left - moved) := by
  cases Int.le_total left (m * need - taken) with
  | inr hroom =>
    have hused : 0 ≤ c * need := Int.mul_nonneg (Int.natCast_nonneg c) hpace.need_pos.le
    exact .full (by omega) (by omega)
  | inl hall =>
    obtain rfl : moved = left := by omega
    cases h with
    | full had nonneg => exact .full (by omega) (by omega)
    | drawn e g left_eq taken_eq le made fillings_le =>
      have hturns : (age + 1) / period = age / period + 1 := by rw [Nat.succ_div, if_pos hboundary]
      have hage : (age + 1) / period * period = age + 1 := Nat.div_mul_cancel hboundary
      refine .drawn 0 (g + e) (by simp) ?_ (Nat.zero_le m) (.inr ?_) ?_
      · rw [Nat.cast_add, Int.add_mul, ← taken_eq, ← left_eq]
        omega
      · rw [hage, Nat.zero_add]
      · rw [hturns]
        refine fillings_succ hpace.leaf_pos ?_ le fillings_le
        rwa [← hturns, hage]

/-- A cycle turns stock into a count. -/
theorem runs (h : Reserve m period leafPeriod need yield age leafAge c taken left) :
    Reserve m period leafPeriod need yield age leafAge (c + 1) (taken - need) left := by
  have hcount : taken - need + ((c + 1 : Nat) : Int) * need = taken + c * need := by
    push_cast
    ring
  cases h with
  | full had nonneg => exact .full (hcount ▸ had) nonneg
  | drawn e g left_eq taken_eq le made fillings_le =>
    exact .drawn e g left_eq (hcount.trans taken_eq) le made fillings_le

/-- What was drawn in `lead` turns more than there were cycles is enough for the next one. -/
theorem enough (h : Reserve m period leafPeriod need yield age leafAge c taken left)
    (hpace : Pace m k lead period leafPeriod need yield) (hk : c + 1 ≤ k) (hm : k ≤ m)
    (hturns : age / period = c + 1 + lead) : need ≤ taken := by
  have hdrawn : ((c + 1 : Nat) : Int) * need ≤ taken + c * need := by
    cases h with
    | full had _ =>
      have hle : ((c + 1 : Nat) : Int) ≤ m := by exact_mod_cast hk.trans hm
      exact (mul_le_mul_of_nonneg_right hle hpace.need_pos.le).trans had
    | drawn e g _ taken_eq _ _ fillings_le =>
      exact taken_eq ▸ hpace.enough hk (hturns ▸ fillings_le)
  rw [Nat.cast_succ, Int.add_mul, Int.one_mul] at hdrawn
  omega

end Reserve

end Conveyor
