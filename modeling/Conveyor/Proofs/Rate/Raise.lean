-- SUMMARY: A raised multiplier is above the old one and makes enough of what was in short supply.
import Conveyor.Proofs.Rate.Shortage

/-!
# Raises

A raise divides a multiplier by the share of the demand that it meets, takes off the tolerance and
rounds up. A share that is next to nothing gives no raise: the quotient leaves the doubles, and an
infinity has no ceiling.
-/

namespace Conveyor

open Binary64

/-! ## Rounding up -/

variable {x : Float} {X : ℚ} {k : Int}

theorem Binary64.Stands.le_of_ceiling (hx : Stands x X) (h : ceiling x = .ok k) : X ≤ k := by
  obtain ⟨r, hr, hvalue⟩ := hx.exists_fraction
  unfold ceiling finiteFraction at h
  rw [hr] at h
  obtain rfl := Except.ok.inj h
  have hden : (0 : ℚ) < r.den := by exact_mod_cast r.den_pos
  rw [← hvalue, div_le_iff₀ hden]
  have hfloor : r.num ≤ r.ceil * r.den := by
    have hpos : 0 < (r.den : Int) := by exact_mod_cast r.den_pos
    unfold Fraction.ceil
    rw [Int.fdiv_eq_ediv_of_nonneg _ hpos.le]
    have := Int.ediv_mul_le (-r.num) hpos.ne'
    linarith
  exact_mod_cast hfloor

theorem Binary64.IsInfinite.ceiling_ne (hx : IsInfinite x) : ceiling x ≠ .ok k := by
  have hnone : fraction? x = none := by
    unfold fraction?
    rw [hx]
  intro h
  unfold ceiling finiteFraction at h
  rw [hnone] at h
  cases hnan : x.isNaN <;> rw [hnan] at h <;> cases h

/-! ## The raise -/

namespace Rate

variable {ε : Float} {η θ : ℚ}

/-- Rounded up less the tolerance, one or more still makes what the tolerance leaves. -/
theorem rest_le_ceiling (hε : Tolerance ε η θ) (hx : Stands x X) (hone : 1 ≤ X)
    (h : ceiling (x - ε) = .ok k) : X * θ ≤ k * slack ^ 2 := by
  have hleft := hε.left
  have hη := hε.stands.nonneg
  have hregular : Regular (X - η) := .inr (by linarith [tiny_le_digit, tiny_pos])
  have hslack := (slack_pow_pos 1).le
  rcases (rounded_sub hx hε.stands (by linarith)).within hregular with ⟨w, hw, hdrift⟩ | ⟨hinfinite, _⟩
  · calc X * θ ≤ X * ((1 - η) * slack ^ 1) := mul_le_mul_of_nonneg_left hε.within.1 (by linarith)
      _ = (X - X * η) * slack ^ 1 := by ring
      _ ≤ (X - η) * slack ^ 1 := by
          gcongr
          exact le_mul_of_one_le_left hη hone
      _ ≤ w * slack ^ 1 * slack ^ 1 := mul_le_mul_of_nonneg_right hdrift.2 hslack
      _ ≤ k * slack ^ 1 * slack ^ 1 := by
          gcongr
          exact hw.le_of_ceiling h
      _ = k * slack ^ 2 := by ring
  · exact absurd h hinfinite.ceiling_ne

theorem raisedMultiplier_eq_ok {mult raised : Int} {needed ε : Float}
    (h : raisedMultiplier mult needed ε = .ok raised) :
    ∃ m c, toDouble mult = .ok m ∧ (needed == 0.0) = false ∧
      ceiling (m / needed - ε) = .ok c ∧ raised = max c (mult + 1) := by
  obtain ⟨m, hm, h⟩ := Result.bind_eq_ok.1 h
  obtain ⟨_, hexact, h⟩ := Result.bind_eq_ok.1 h
  obtain ⟨rfl, hzero⟩ := divideDoubles_eq_ok hexact
  obtain ⟨c, hc, h⟩ := Result.bind_eq_ok.1 h
  exact ⟨m, c, hm, hzero, hc, (Result.pure_eq_ok.1 h).symm⟩

/-- A share that is next to nothing goes into one copy more often than the doubles can say. -/
theorem isInfinite_of_small {m w : Float} {A W : ℚ} (hm : Stands m A) (hA : 1 ≤ A * slack ^ 1)
    (hw : Stands w W) (hpos : 0 < W) (hsmall : W ≤ 2 * tiny) : IsInfinite (m / w) := by
  have htwo : slack ^ 1 ≤ 5 / 4 := by norm_num [slack]
  have hlarge : 4 / 5 ≤ A := by
    have := mul_le_mul_of_nonneg_left htwo hm.nonneg
    linarith
  have hone : 1 ≤ A / W := by
    rw [one_le_div₀ hpos]
    linarith [tiny_le, tiny_pos]
  rcases (rounded_div hm hw hpos).within (.inr (by linarith [tiny_le, tiny_pos])) with
    ⟨v, hv, hdrift⟩ | ⟨hinfinite, _⟩
  · have hquotient : A / W ≤ limit * (5 / 4) :=
      calc A / W ≤ v * slack ^ 1 := hdrift.2
        _ ≤ limit * (5 / 4) := mul_le_mul hv.lt_limit.le htwo (slack_pow_pos 1).le (pow_pos two_pos _).le
    rw [div_le_iff₀ hpos] at hquotient
    have hbound : limit * (5 / 4) * W ≤ limit * (5 / 4) * (2 * tiny) :=
      mul_le_mul_of_nonneg_left hsmall (by linarith [one_le_limit])
    linarith [tiny_mul_limit]
  · exact hinfinite

/-- The quotient that is rounded up is what the demand asks for, unless one copy is enough. -/
theorem demand_le_of_ceiling {m w : Float} {A W M q : ℚ} {k : Int} (hε : Tolerance ε η θ) (hm : Stands m A)
    (hA : Within 1 A M) (hM : 1 ≤ M) (hw : Stands w W) (hpos : 0 < W) (hW : Within 4 W q)
    (hq : 0 < q) (hq1 : q ≤ 1) (hk : ceiling (m / w - ε) = .ok k) :
    M / q * θ ≤ max (k : ℚ) 1 * slack ^ 8 := by
  have hone : 1 ≤ M / q := (one_le_div₀ hq).2 (hq1.trans hM)
  have hquotient : Within (1 + 4) (A / W) (M / q) :=
    hA.div hW hm.nonneg (zero_le_one.trans hM) hpos hq
  have hregular : Regular (A / W) :=
    hquotient.regular (by decide) (div_nonneg hm.nonneg hpos.le) (.inr (tiny_le.trans hone))
  rcases div_within (l := 6) rfl hm hw hpos hquotient hregular with ⟨v, hv, hdrift⟩ | ⟨hinfinite, _⟩
  swap
  · exact absurd hk (hinfinite.sub_stands hε.stands).ceiling_ne
  have hmax : (0 : ℚ) ≤ max (k : ℚ) 1 := zero_le_one.trans (le_max_right _ _)
  cases le_total 1 v with
  | inl hlarge =>
    calc M / q * θ ≤ v * slack ^ 6 * θ := mul_le_mul_of_nonneg_right hdrift.2 hε.pos.le
      _ = v * θ * slack ^ 6 := mul_right_comm _ _ _
      _ ≤ k * slack ^ 2 * slack ^ 6 :=
          mul_le_mul_of_nonneg_right (rest_le_ceiling hε hv hlarge hk) (slack_pow_pos 6).le
      _ = k * slack ^ 8 := by ring
      _ ≤ max (k : ℚ) 1 * slack ^ 8 :=
          mul_le_mul_of_nonneg_right (le_max_left _ _) (slack_pow_pos 8).le
  | inr hsmall =>
    calc M / q * θ ≤ v * slack ^ 6 * slack ^ 1 :=
          mul_le_mul hdrift.2 hε.le_slack hε.pos.le (mul_nonneg hv.nonneg (slack_pow_pos 6).le)
      _ = v * slack ^ 7 := by ring
      _ ≤ max (k : ℚ) 1 * slack ^ 8 :=
          mul_le_mul (hsmall.trans (le_max_right _ _)) (pow_le_pow_right₀ one_le_slack (by decide))
            (slack_pow_pos 7).le hmax

/-- Where the old copies all but meet the demand, so do more of them. -/
theorem demand_le_of_grown {d f g : ℚ} {j : Nat} (hε : Tolerance ε η θ) (hj : j ≤ 7) (hd : 0 ≤ d) (hf : 0 ≤ f)
    (hmet : d ≤ f * slack ^ j) (hgrows : f ≤ g) : θ * d ≤ g * slack ^ 8 :=
  calc θ * d ≤ slack ^ 1 * (f * slack ^ j) := mul_le_mul hε.le_slack hmet hd (slack_pow_pos 1).le
    _ = f * slack ^ (j + 1) := by ring
    _ ≤ g * slack ^ 8 :=
      mul_le_mul hgrows (pow_le_pow_right₀ one_le_slack (by omega)) (slack_pow_pos _).le (hf.trans hgrows)

/-- As many copies as the demand asks for, at what one of them makes, meet it. -/
theorem demand_le_of_copies {d unit M K : ℚ} (hM : 0 < M) (hunit : 0 < unit) (hd : 0 < d)
    (hcopies : M / (unit * M / d) * θ ≤ K * slack ^ 8) : θ * d ≤ unit * K * slack ^ 8 := by
  have hquotient : M / (unit * M / d) = d / unit := by field_simp
  rw [hquotient] at hcopies
  calc θ * d = unit * (d / unit * θ) := by field_simp
    _ ≤ unit * (K * slack ^ 8) := mul_le_mul_of_nonneg_left hcopies hunit.le
    _ = unit * K * slack ^ 8 := by ring

/-- The raise is above the old multiplier, and what so many copies make is all that the tolerance leaves of
the demand, up to a few roundings. -/
theorem le_of_raised {c o : Rate} {n mult raised : Int} {needed : Float} {unit : ℚ} (hε : Tolerance ε η θ)
    (hc : c.Ordinary) (ho : o.ticks = .whole n) (hratio : c.ratio o = .ok needed)
    (h : raisedMultiplier mult needed ε = .ok raised) (hmult : 1 ≤ mult)
    (hunit : 0 < unit) (hflow : c.flow = unit * mult) :
    mult < raised ∧ θ * o.flow ≤ unit * raised * slack ^ 8 := by
  obtain ⟨m, k, hm, hzero, hk, hmax⟩ := raisedMultiplier_eq_ok h
  have hraised : mult < raised := hmax ▸ lt_of_lt_of_le (Int.lt_succ mult) (le_max_right _ _)
  refine ⟨hraised, ?_⟩
  obtain ⟨hpos, htells⟩ := ratio_tells hc ho hratio
  obtain ⟨A, hA, hdrift⟩ := toDouble_within (by omega) hm
  have hcopies : (1 : ℚ) ≤ mult := by exact_mod_cast hmult
  have hmore : (mult : ℚ) ≤ raised := by exact_mod_cast hraised.le
  have hgrows : c.flow ≤ unit * raised := hflow.trans_le (mul_le_mul_of_nonneg_left hmore hunit.le)
  have hcpos : 0 < c.flow := hflow ▸ mul_pos hunit (one_pos.trans_le hcopies)
  cases le_total o.flow c.flow with
  | inl hmet =>
    exact demand_le_of_grown (j := 0) hε (by decide) hpos.le hcpos.le (by rwa [pow_zero, mul_one]) hgrows
  | inr hless =>
    cases htells with
    | near hw hwithin =>
      have hdemand := demand_le_of_ceiling hε hA hdrift hcopies hw (pos_of_beq_zero hw hzero) hwithin
        (div_pos hcpos hpos) (div_le_one_of_le₀ hless hpos.le) hk
      have hbound : max (k : ℚ) 1 ≤ raised := by
        refine max_le ?_ (hcopies.trans hmore)
        rw [hmax]
        exact_mod_cast le_max_left k (mult + 1)
      rw [hflow] at hdemand
      refine demand_le_of_copies (one_pos.trans_le hcopies) hunit hpos (hdemand.trans ?_)
      exact mul_le_mul_of_nonneg_right hbound (slack_pow_pos 8).le
    | small hw hsmall _ =>
      have hinfinite := isInfinite_of_small hA (hcopies.trans hdrift.2) hw (pos_of_beq_zero hw hzero)
        hsmall
      exact absurd hk (hinfinite.sub_stands hε.stands).ceiling_ne
    | full _ _ hexact =>
      rw [div_mul_eq_mul_div, one_le_div₀ hpos] at hexact
      exact demand_le_of_grown hε (by decide) hpos.le hcpos.le hexact hgrows

end Rate

end Conveyor
