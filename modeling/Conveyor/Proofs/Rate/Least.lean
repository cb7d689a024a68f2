-- SUMMARY: A raise makes enough, and with one copy less there would not be enough, but for a few roundings.
import Conveyor.Proofs.Double.Close
import Conveyor.Proofs.Rate.Range

/-!
# The least raise

A raise goes through six roundings, each of half a unit in the last place: of the multiplier, the two
throughputs, their ratio, the quotient, and what the tolerance leaves of it. They err by a share of the
quotient, whereas the tolerance is taken off as it is. So the tolerance makes up for all of them as long as
the quotient is no more than a million or so, and a larger quotient may be rounded up to one copy too many.
-/

namespace Conveyor

open Binary64

namespace Rate

variable {r s : Rate} {m n mult : Int} {needed : Float} {q v w z X : ℚ} {b d : Nat}

/-! ## Rates over whole bases -/

theorem exists_throughput_close (hticks : r.ticks = .whole n) (hflow : Mid b r.flow) (hb : b ≤ 1000) :
    ∃ x X, r.throughput = .ok x ∧ Stands x X ∧ Close 1 X r.flow := by
  rw [flow_of_whole hticks] at hflow ⊢
  obtain ⟨x, hx, hround⟩ := exists_divideInts r.amount_nonneg (whole_pos hticks) (hflow.le_room hb)
  obtain ⟨X, hX, hclose⟩ := hround.close hflow hb
  refine ⟨x, X, ?_, hX, hclose⟩
  rw [throughput, hticks]
  exact hx

theorem isZero_of_flow_pos (h : 0 < r.flow) : r.isZero = false :=
  Bool.eq_false_iff.2 fun hzero => h.ne' (flow_of_isZero hzero)

theorem exists_ratio_close (hr : r.ticks = .whole m) (hs : s.ticks = .whole n) (hrflow : Mid b r.flow)
    (hsflow : Mid d s.flow) (hroom : b + d + 1 ≤ 1000) :
    ∃ z w, r.ratio s = .ok z ∧ Stands z w ∧ Close 3 w (r.flow / s.flow) := by
  obtain ⟨x, X, hx, hX, hXr⟩ := exists_throughput_close hr hrflow (by omega)
  obtain ⟨y, Y, hy, hY, hYs⟩ := exists_throughput_close hs hsflow (by omega)
  have hYpos := hYs.pos nudge_pos hsflow.pos
  have hquotient : Close (1 + 1) (X / Y) (r.flow / s.flow) :=
    hXr.div nudge_pos hYs hX.nonneg hrflow.pos.le hYpos hsflow.pos
  obtain ⟨w, hw, hclose⟩ := exists_div_close hX hY hYpos hquotient (by decide) (hrflow.div hsflow) hroom
  refine ⟨x / y, w, ?_, hw, hclose⟩
  unfold ratio
  rw [isZero_of_flow_pos hsflow.pos, hx, hy]
  exact divideDoubles_of_pos hY hYpos

theorem one_sub_tolerance_le : 1 - tolerance ≤ enough * nudge := by
  norm_num [tolerance, enough, nudge]

theorem mid_enough : Mid 1 enough where
  low := by norm_num [enough]
  high := by norm_num [enough]

/-- The comparison has an answer, and what falls short by more than a few roundings is found short. -/
theorem exists_isShortOf_close (hr : r.ticks = .whole m) (hs : s.ticks = .whole n) (hrflow : Mid b r.flow)
    (hsflow : Mid d s.flow) (hb : b ≤ 1000) (hd : d + 2 ≤ 1000) :
    ∃ short, r.isShortOf s defaultEpsilon = .ok short ∧
      (r.flow * (1 + 1 / 2 ^ 50) ≤ s.flow * (1 - tolerance) → short = true) := by
  obtain ⟨x, X, hx, hX, hXr⟩ := exists_throughput_close hr hrflow hb
  obtain ⟨y, Y, hy, hY, hYs⟩ := exists_throughput_close hs hsflow (by omega)
  have hYmid : Mid (d + 1) Y := hYs.mid (by decide) hsflow
  obtain ⟨w, hw, hclose⟩ := (rounded_mul hY stands_enough).close (hYmid.mul mid_enough) hd
  refine ⟨_, Result.bind_eq_ok.2 ⟨x, hx, Result.bind_eq_ok.2 ⟨y, hy, rfl⟩⟩, fun hshort => ?_⟩
  have hXpos := hXr.pos nudge_pos hrflow.pos
  have hdrift : X * nudge ^ 6 ≤ w * nudge ^ 5 :=
    calc X * nudge ^ 6 ≤ r.flow * nudge ^ 1 * (1 + 1 / 2 ^ 50) :=
          mul_le_mul hXr.1 (nudge_pow_le (Nat.le_refl 6)) (pow_pos nudge_pos 6).le
            (mul_nonneg hrflow.pos.le (pow_pos nudge_pos 1).le)
      _ = r.flow * (1 + 1 / 2 ^ 50) * nudge ^ 1 := mul_right_comm _ _ _
      _ ≤ s.flow * (1 - tolerance) * nudge ^ 1 := mul_le_mul_of_nonneg_right hshort (pow_pos nudge_pos 1).le
      _ ≤ Y * nudge ^ 1 * (enough * nudge) * nudge ^ 1 := by
          refine mul_le_mul_of_nonneg_right ?_ (pow_pos nudge_pos 1).le
          exact mul_le_mul hYs.2 one_sub_tolerance_le (by norm_num [tolerance])
            (mul_nonneg hY.nonneg (pow_pos nudge_pos 1).le)
      _ = Y * enough * nudge ^ 3 := by ring
      _ ≤ w * nudge ^ 1 * nudge ^ 3 := mul_le_mul_of_nonneg_right hclose.2 (pow_pos nudge_pos 3).le
      _ = w * nudge ^ 4 := by ring
      _ ≤ w * nudge ^ 5 := mul_le_mul_of_nonneg_left (pow_le_pow_right₀ one_le_nudge (by decide)) hw.nonneg
  have hless : X < w := by
    refine lt_of_mul_lt_mul_right ?_ (pow_pos nudge_pos 5).le
    exact (mul_lt_mul_of_pos_left (pow_lt_pow_right₀ one_lt_nudge (by decide)) hXpos).trans_le hdrift
  exact decide_eq_true ((lt_iff hX.size hw.size).2 (WithTop.coe_lt_coe.2 hless))

/-! ## The raise -/

/-- From `mult` copies to `n`, where `X` copies would meet the demand exactly: `n` copies meet what the
tolerance leaves of it, and one less would not meet it, unless the roundings come to more than the tolerance. -/
structure Fitting (X : ℚ) (mult n : Int) : Prop where
  grows : mult < n
  enough : X * (1 - tolerance) ≤ n
  nearly : n - 1 < X * (1 + 1 / 2 ^ 50)
  least : X ≤ 2 ^ 20 → n - 1 < X

/-- A raise that is fitting, without the quotient. -/
theorem Fitting.of_div {D E : ℚ} (h : Fitting (D / E) mult n) (hE : 0 < E) :
    D * (1 - tolerance) ≤ n * E ∧ (n - 1) * E * 2 ^ 50 < D * (2 ^ 50 + 1) ∧
      (D ≤ 2 ^ 20 * E → (n - 1) * E < D) := by
  obtain ⟨_, henough, hnearly, hleast⟩ := h
  rw [div_mul_eq_mul_div, div_le_iff₀ hE] at henough
  rw [div_mul_eq_mul_div, lt_div_iff₀ hE] at hnearly
  rw [div_le_iff₀ hE, lt_div_iff₀ hE] at hleast
  refine ⟨henough, ?_, hleast⟩
  linarith

theorem two_pow_le_tolerance : 1 / 2 ^ 30 ≤ tolerance := by norm_num [tolerance]

/-- What is left of a quotient near `X` is no more than `X` and the roundings. -/
theorem reduced_le (hv : Close 5 v X) (hz : Close 1 z (v - tolerance)) (hX : 0 ≤ X) :
    z ≤ X * (1 + 1 / 2 ^ 50) - tolerance :=
  calc z ≤ (v - tolerance) * nudge ^ 1 := hz.1
    _ ≤ (X * nudge ^ 5 - tolerance) * nudge ^ 1 := by
      gcongr
      · exact (pow_pos nudge_pos 1).le
      · exact hv.1
    _ = X * nudge ^ 6 - tolerance * nudge := by ring
    _ ≤ X * (1 + 1 / 2 ^ 50) - tolerance := by
      refine sub_le_sub (mul_le_mul_of_nonneg_left (nudge_pow_le (Nat.le_refl 6)) hX) ?_
      exact le_mul_of_one_le_right stands_tolerance.nonneg one_le_nudge

/-- What is left of a quotient near `X` is no less than what the tolerance leaves of `X` in proportion, as
this takes off the tolerance twice or more. -/
theorem le_reduced (hv : Close 5 v X) (hz : Close 1 z (v - tolerance)) (hz0 : 0 ≤ z) (hX : 2 ≤ X) :
    X * (1 - tolerance) ≤ z := by
  have htolerance := two_pow_le_tolerance
  have hback : X ≤ (z + tolerance) * (1 + 1 / 2 ^ 50) :=
    calc X ≤ v * nudge ^ 5 := hv.2
      _ ≤ (z * nudge ^ 1 + tolerance) * nudge ^ 5 := by
        refine mul_le_mul_of_nonneg_right ?_ (pow_pos nudge_pos 5).le
        linarith [hz.2]
      _ ≤ (z * nudge ^ 1 + tolerance * nudge ^ 1) * nudge ^ 5 := by
        gcongr
        · exact (pow_pos nudge_pos 5).le
        · exact le_mul_of_one_le_right stands_tolerance.nonneg (one_le_pow₀ one_le_nudge)
      _ = (z + tolerance) * nudge ^ 6 := by ring
      _ ≤ (z + tolerance) * (1 + 1 / 2 ^ 50) :=
        mul_le_mul_of_nonneg_left (nudge_pow_le (Nat.le_refl 6)) (add_nonneg hz0 stands_tolerance.nonneg)
  have htwice : 2 * (tolerance * (1 + 1 / 2 ^ 50) - 1 / 2 ^ 50) ≤ X * (tolerance * (1 + 1 / 2 ^ 50) - 1 / 2 ^ 50) :=
    mul_le_mul_of_nonneg_right hX (by linarith)
  refine le_of_mul_le_mul_right ?_ (by norm_num : (0 : ℚ) < 1 + 1 / 2 ^ 50)
  linarith

theorem exists_quotient_close (hmult : Mid d mult) (hw : Stands needed w) (hclose : Close 3 w q) (hq : Mid b q)
    (hroom : d + b + 1 ≤ 1000) : ∃ m v, toDouble mult = .ok m ∧ divideDoubles m needed = .ok (m / needed) ∧
      Stands (m / needed) v ∧ Close 5 v (mult / q) := by
  obtain ⟨m, hm, hround⟩ := exists_toDouble_rounded (Int.cast_nonneg_iff.1 hmult.pos.le) (hmult.le_room (by omega))
  obtain ⟨M, hM, hMclose⟩ := hround.close hmult (by omega)
  have hwpos := hclose.pos nudge_pos hq.pos
  have hquotient : Close (1 + 3) (M / w) (mult / q) :=
    hMclose.div nudge_pos hclose hM.nonneg hmult.pos.le hwpos hq.pos
  obtain ⟨v, hv, hvclose⟩ := exists_div_close hM hw hwpos hquotient (by decide) (hmult.div hq) hroom
  exact ⟨m, v, hm, divideDoubles_of_pos hw hwpos, hv, hvclose⟩

/-- What the tolerance leaves of a quotient of one or more is rounded like any other value. -/
theorem exists_reduced_close {x : Float} (hx : Stands x v) (hclose : Close 5 v X) (hX : Mid b X) (hone : 1 ≤ X)
    (hb : b + 2 ≤ 1000) : ∃ z, Stands (x - defaultEpsilon) z ∧ Close 1 z (v - tolerance) := by
  have hhalf : 1 ≤ v * 2 :=
    (hone.trans hclose.2).trans (mul_le_mul_of_nonneg_left (nudge_pow_le_two (by decide)) hx.nonneg)
  have htolerance := tolerance_le
  have hmid : Mid (b + 2) (v - tolerance) := by
    constructor
    · have hpow : (1 : ℚ) ≤ 2 ^ b := one_le_pow₀ one_le_two
      calc 1 ≤ (v - tolerance) * 4 := by linarith
        _ ≤ (v - tolerance) * 4 * 2 ^ b := le_mul_of_one_le_right (by linarith) hpow
        _ = (v - tolerance) * 2 ^ (b + 2) := by ring
    · have hhigh : Mid (b + 1) v := hclose.mid (by decide) hX
      exact (sub_le_self v stands_tolerance.nonneg).trans (hhigh.mono (Nat.le_succ _)).high
  exact (rounded_sub hx stands_tolerance (by linarith)).close hmid hb

/-- A multiplier that meets less than the demand has a raise, and the raise is fitting. -/
theorem exists_raise_fitting (hmult : Mid d mult) (hone : 1 ≤ mult) (hw : Stands needed w) (hclose : Close 3 w q)
    (hq : Mid b q) (hless : q < 1) (hroom : d + b + 2 ≤ 1000) :
    ∃ n, raisedMultiplier mult needed defaultEpsilon = .ok n ∧ Fitting (mult / q) mult n := by
  have hcopies : (1 : ℚ) ≤ mult := by exact_mod_cast hone
  have hmore : (mult : ℚ) < mult / q := by
    rw [lt_div_iff₀ hq.pos]
    exact mul_lt_of_lt_one_right (one_pos.trans_le hcopies) hless
  have hX : 1 ≤ (mult : ℚ) / q := hcopies.trans hmore.le
  obtain ⟨m, v, hm, hdivide, hv, hvclose⟩ := exists_quotient_close hmult hw hclose hq (by omega)
  obtain ⟨z, hz, hzclose⟩ := exists_reduced_close hv hvclose (hmult.div hq) hX hroom
  obtain ⟨k, hk, hlt⟩ := hz.exists_ceiling
  have hle := hz.le_of_ceiling hk
  have hraise : raisedMultiplier mult needed defaultEpsilon = .ok (max k (mult + 1)) :=
    Result.bind_eq_ok.2 ⟨m, hm, Result.bind_eq_ok.2 ⟨m / needed, hdivide, Result.bind_eq_ok.2 ⟨k, hk, rfl⟩⟩⟩
  have hupper := reduced_le hvclose hzclose (zero_le_one.trans hX)
  have htolerance := two_pow_le_tolerance
  have hbelow {c : ℚ} (hz : z ≤ c) (hc : mult / q ≤ c) : ((max k (mult + 1) : Int) : ℚ) - 1 < c := by
    rw [sub_lt_iff_lt_add]
    push_cast
    exact max_lt (hlt.trans_le (by linarith)) (by linarith)
  refine ⟨_, hraise, Int.lt_of_lt_of_le (Int.lt_succ mult) (le_max_right _ _), ?_, hbelow ?_ ?_, fun hsmall => ?_⟩
  · push_cast
    cases le_total 2 ((mult : ℚ) / q) with
    | inl hlarge => exact ((le_reduced hvclose hzclose hz.nonneg hlarge).trans hle).trans (le_max_left _ _)
    | inr hsmall =>
      refine le_trans ?_ (le_max_right _ _)
      calc (mult : ℚ) / q * (1 - tolerance) ≤ mult / q :=
            mul_le_of_le_one_right (zero_le_one.trans hX) (by linarith)
        _ ≤ 2 := hsmall
        _ ≤ mult + 1 := by linarith
  · linarith
  · exact le_mul_of_one_le_right (zero_le_one.trans hX) (by norm_num)
  · exact hbelow (by linarith) (le_refl _)

end Rate

end Conveyor
