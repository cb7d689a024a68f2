-- SUMMARY: Countdowns cross no negative number of boundaries, because periods are not negative.
import Conveyor.Arena.Simulation
import Conveyor.Proofs.Result

/-!
# Countdowns

A tick base above zero has no negative period. A countdown over such a period crosses some number of
boundaries or none, wherever it starts.
-/

namespace Conveyor

/-! ## Periods -/

theorem unpack_zero : (0.0 : Float).toModel.unpack = .zero .positive := rfl

theorem Binary64.pos_of_fraction? {x : Float} {r : Binary64.Fraction} (hx : ¬ x ≤ 0.0)
    (h : Binary64.fraction? x = some r) : 0 < r.num := by
  have hzero (hle : x.toModel.unpack.le (0.0 : Float).toModel.unpack = true) : False :=
    hx (decide_eq_true hle)
  rw [unpack_zero] at hzero
  unfold Binary64.fraction? at h
  cases hu : x.toModel.unpack with
  | zero sign =>
    rw [hu] at hzero
    cases sign <;> exact (hzero rfl).elim
  | infinity sign => rw [hu] at h; cases h
  | notANumber => rw [hu] at h; cases h
  | finite sign m e hm =>
    cases sign with
    | negative =>
      rw [hu] at hzero
      exact (hzero rfl).elim
    | positive =>
      rw [hu] at h
      simp only at h
      split at h <;> obtain rfl := Option.some.inj h
      · exact Int.natCast_pos.2 (Nat.mul_pos hm (Nat.two_pow_pos _))
      · exact Int.natCast_pos.2 hm

theorem Recipe.period_nonneg {r : Recipe} {n : Int} (h : r.period = .ok n) : 0 ≤ n := by
  obtain ⟨⟨amount, ticks, _, hpos⟩, _, _⟩ := r
  cases ticks with
  | whole m =>
    obtain rfl := Except.ok.inj h
    exact Int.le_of_lt hpos
  | real x =>
    change (finiteFraction x).map Binary64.Fraction.truncate = .ok n at h
    unfold finiteFraction at h
    cases hx : Binary64.fraction? x with
    | none => rw [hx] at h; simp only at h; split at h <;> cases h
    | some r =>
      rw [hx] at h
      obtain rfl := Except.ok.inj h
      exact Int.tdiv_nonneg (Int.le_of_lt (Binary64.pos_of_fraction? hpos hx)) (Int.natCast_nonneg _)

/-! ## Boundaries -/

namespace Clock

variable {next period ticks count left : Int}

theorem fromBoundary_nonneg (hp : 0 ≤ period) (ht : 0 ≤ ticks)
    (h : fromBoundary period ticks = .ok (count, left)) : 0 ≤ count := by
  unfold fromBoundary at h
  split at h
  · obtain ⟨rfl, rfl⟩ := Prod.mk.inj (Except.ok.inj h)
    exact Int.le_refl 0
  · split at h
    · cases h
    · obtain ⟨rfl, rfl⟩ := Prod.mk.inj (Except.ok.inj h)
      exact Int.fdiv_nonneg ht hp

theorem advance_nonneg (hp : 0 ≤ period) (h : advance next period ticks = .ok (count, left)) :
    0 ≤ count := by
  unfold advance at h
  split at h
  · obtain ⟨rfl, rfl⟩ := Prod.mk.inj (Except.ok.inj h)
    exact Int.le_refl 0
  split at h
  · exact fromBoundary_nonneg hp (by omega) h
  split at h
  · obtain ⟨rfl, rfl⟩ := Prod.mk.inj (Except.ok.inj h)
    exact Int.le_refl 0
  split at h
  · obtain ⟨rfl, rfl⟩ := Prod.mk.inj (Except.ok.inj h)
    exact Int.one_nonneg
  · cases hrest : fromBoundary period (ticks - next) with
    | error f => rw [hrest] at h; cases h
    | ok crossed =>
      rw [hrest] at h
      obtain ⟨rfl, rfl⟩ := Prod.mk.inj (Except.ok.inj h)
      have := fromBoundary_nonneg hp (by omega) hrest
      omega

/-! ## Countdowns within a period -/

theorem fromBoundary_eq_ok (hp : 1 ≤ period) (ht : 0 ≤ ticks) :
    fromBoundary period ticks = .ok (ticks / period, period - ticks % period) := by
  unfold fromBoundary
  split
  next hlt => rw [Int.ediv_eq_zero_of_lt ht hlt, Int.emod_eq_of_lt ht hlt]
  · have hmod := Int.emod_nonneg ticks (by omega : period ≠ 0)
    rw [if_neg (by omega), Int.fdiv_eq_ediv_of_nonneg _ (by omega), Int.fmod_eq_emod_of_nonneg _ (by omega)]
    simp only
    split
    · rfl
    next hzero => rw [show ticks % period = 0 by omega, Int.sub_zero]

/-- A countdown is where the running cycle stands: so many ticks of it have passed, and time adds to them. -/
theorem advance_eq_ok (hnext : 1 ≤ next) (hle : next ≤ period) (ht : 0 ≤ ticks) :
    advance next period ticks =
      .ok ((period - next + ticks) / period, period - (period - next + ticks) % period) := by
  -- Until the boundary the passed ticks are fewer than a period.
  have hwithin (hlt : ticks < next) : (period - next + ticks) / period = 0 ∧
      (period - next + ticks) % period = period - next + ticks :=
    ⟨Int.ediv_eq_zero_of_lt (by omega) (by omega), Int.emod_eq_of_lt (by omega) (by omega)⟩
  have hbeyond : (period - next + ticks) / period = (ticks - next) / period + 1 ∧
      (period - next + ticks) % period = (ticks - next) % period := by
    rw [show period - next + ticks = ticks - next + period by omega]
    refine ⟨?_, Int.add_emod_right _ _⟩
    rw [Int.add_ediv_of_dvd_right (Int.dvd_refl period), Int.ediv_self (by omega)]
  unfold advance
  split
  · rw [(hwithin (by omega)).1, (hwithin (by omega)).2]
    exact congrArg (fun left => Except.ok (0, left)) (by omega)
  split
  next heq =>
    rw [fromBoundary_eq_ok (by omega) ht, heq, Int.sub_self, Int.zero_add]
  split
  next hlt =>
    rw [(hwithin hlt).1, (hwithin hlt).2]
    exact congrArg (fun left => Except.ok (0, left)) (by omega)
  split
  · have hzero : ticks - next = 0 := by omega
    rw [hbeyond.1, hbeyond.2, hzero, Int.zero_ediv, Int.zero_emod, Int.sub_zero, Int.zero_add]
  · rw [fromBoundary_eq_ok (by omega) (by omega), hbeyond.1, hbeyond.2]
    rfl

theorem advance_range (hnext : 1 ≤ next) (hle : next ≤ period) (ht : 0 ≤ ticks)
    (h : advance next period ticks = .ok (count, left)) : 1 ≤ left ∧ left ≤ period := by
  rw [advance_eq_ok hnext hle ht] at h
  obtain ⟨_, rfl⟩ := Prod.mk.inj (Except.ok.inj h)
  have hnonneg := Int.emod_nonneg (period - next + ticks) (by omega : period ≠ 0)
  have hlt := Int.emod_lt_of_pos (period - next + ticks) (by omega : 0 < period)
  omega

/-- Passing time in two parts crosses the boundaries that the whole crosses. -/
theorem advance_add {count' left' ticks' : Int} (hnext : 1 ≤ next) (hle : next ≤ period) (ht : 0 ≤ ticks)
    (ht' : 0 ≤ ticks') (h : advance next period ticks = .ok (count, left))
    (h' : advance left period ticks' = .ok (count', left')) :
    advance next period (ticks + ticks') = .ok (count + count', left') := by
  obtain ⟨hleft, hleft'⟩ := advance_range hnext hle ht h
  rw [advance_eq_ok hnext hle ht] at h
  obtain ⟨rfl, rfl⟩ := Prod.mk.inj (Except.ok.inj h)
  set passed := period - next + ticks
  rw [advance_eq_ok hleft hleft' ht'] at h'
  obtain ⟨rfl, rfl⟩ := Prod.mk.inj (Except.ok.inj h')
  have hrest : period - (period - passed % period) + ticks' = passed % period + ticks' := by omega
  have hdivide : (passed + ticks') / period = passed / period + (passed % period + ticks') / period := by
    conv_lhs => rw [← Int.emod_add_mul_ediv passed period, Int.add_right_comm]
    rw [Int.add_mul_ediv_left _ _ (by omega), Int.add_comm]
  rw [advance_eq_ok hnext hle (by omega), hrest, Int.emod_add_emod, ← hdivide, ← Int.add_assoc]

end Clock

end Conveyor
