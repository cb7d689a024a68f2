-- SUMMARY: What a ratio, a comparison and a raise computed from two rates say about what the rates are worth.
import Conveyor.Arena.Balance
import Conveyor.Proofs.Rate

/-!
# Shortage

Efficiencies and raises come from ratios of throughputs, and whether a rate is short of another from
a comparison with a tolerance. All of them are computed on doubles. What they say holds of the exact
flows up to a few roundings, unless a ratio is all but nothing.
-/

namespace Conveyor

open Binary64

/-! ## Ratios -/

/-- What a double says about an exact ratio: it is near, or both are all but nothing, or both are one or
more. -/
inductive Binary64.Tells (k : Nat) (z : Float) (q : ℚ) : Prop
  | near {w : ℚ} (stands : Stands z w) (within : Within k w q)
  | small {w : ℚ} (stands : Stands z w) (le : w ≤ 2 * tiny) (exact : q ≤ 2 * tiny)
  | full {v : WithTop ℚ} (size : Size z v) (le : 1 ≤ v) (exact : 1 ≤ q * slack ^ k)

namespace Binary64.Tells

variable {k : Nat} {z : Float} {q η : ℚ} {v : WithTop ℚ}

theorem exists_size (h : Tells k z q) : ∃ v, Size z v := by
  cases h with
  | near stands _ => exact ⟨_, stands.size⟩
  | small stands _ _ => exact ⟨_, stands.size⟩
  | full size _ _ => exact ⟨_, size⟩

/-- What is no more than the double and than one is hardly more than the ratio. -/
theorem upper (h : Tells k z q) (hz : Size z v) (hone : η ≤ 1) (hη : (η : WithTop ℚ) ≤ v) :
    η ≤ 2 * tiny ∨ η ≤ q * slack ^ k := by
  cases h with
  | near stands within =>
    rw [hz.unique stands.size] at hη
    exact .inr ((WithTop.coe_le_coe.1 hη).trans within.1)
  | small stands hle _ =>
    rw [hz.unique stands.size] at hη
    exact .inl ((WithTop.coe_le_coe.1 hη).trans hle)
  | full _ _ exact => exact .inr (hone.trans exact)

/-- The ratio is hardly more than a double below one. -/
theorem lower (h : Tells k z q) (hz : Stands z η) (hone : η < 1) :
    q ≤ max η (2 * tiny) * slack ^ k := by
  have hmax : 0 ≤ max η (2 * tiny) := le_max_of_le_left hz.nonneg
  cases h with
  | near stands within =>
    rw [hz.unique stands]
    exact within.2.trans (mul_le_mul_of_nonneg_right (le_max_left _ _) (slack_pow_pos k).le)
  | small _ _ exact =>
    exact (exact.trans (le_max_right _ _)).trans (le_mul_of_one_le_right hmax (one_le_slack_pow k))
  | full size hle _ =>
    rw [size.unique hz.size] at hle
    exact absurd (WithTop.coe_le_coe.1 hle) (not_le.2 hone)

end Binary64.Tells

namespace Rate

variable {r s : Rate} {x y z ε : Float} {X Y q : ℚ} {m n : Int}

theorem one_le_limit : 1 ≤ limit := one_le_pow₀ one_le_two

theorem div_tells (hx : Stands x X) (hy : Stands y Y) (hY : 0 < Y) (hq : Within 3 (X / Y) q) :
    Tells 4 (x / y) q := by
  have hnonneg : 0 ≤ X / Y := div_nonneg hx.nonneg hY.le
  cases le_total tiny (X / Y) with
  | inl hregular =>
    rcases div_within (l := 4) rfl hx hy hY hq (.inr hregular) with ⟨w, hw, hdrift⟩ | ⟨hinfinite, hle⟩
    · exact .near hw hdrift
    · exact .full hinfinite.size le_top (one_le_limit.trans hle)
  | inr hsmall =>
    have hexact : q ≤ 2 * tiny := by
      calc q ≤ X / Y * slack ^ 3 := hq.2
        _ ≤ tiny * 2 := mul_le_mul hsmall (slack_pow_le_two (by decide)) (slack_pow_pos 3).le tiny_pos.le
        _ = 2 * tiny := mul_comm _ _
    cases rounded_div hx hy hY with
    | near stands near =>
      refine .small stands ?_ hexact
      linarith [near.le_of_le_tiny hsmall, tiny_pos]
    | beyond infinite hle =>
      have hfactor : X / Y * (1 + 1 / 2 ^ 53) ≤ tiny * 2 :=
        mul_le_mul hsmall (by norm_num) (by norm_num) tiny_pos.le
      linarith [one_le_limit, tiny_le, tiny_pos]

theorem ratio_eq_ok (h : r.ratio s = .ok z) :
    ∃ x y, r.throughput = .ok x ∧ s.throughput = .ok y ∧ x / y = z ∧ (y == 0.0) = false := by
  unfold ratio at h
  split at h
  · cases h
  obtain ⟨x, hx, h⟩ := Result.bind_eq_ok.1 h
  obtain ⟨y, hy, h⟩ := Result.bind_eq_ok.1 h
  obtain ⟨hz, hzero⟩ := divideDoubles_eq_ok h
  exact ⟨x, y, hx, hy, hz, hzero⟩

theorem Ordinary.eq_zero_or (hr : r.Ordinary) (hx : Stands x X) (hX : Within 2 X r.flow) :
    (X = 0 ∧ r.flow = 0) ∨ (4 * tiny ≤ r.flow ∧ 2 * tiny ≤ X) := by
  rcases hr.measured with hzero | hmeasured
  · rw [hzero] at hX
    refine .inl ⟨le_antisymm ?_ hx.nonneg, hzero⟩
    have := hX.1
    rwa [zero_mul] at this
  · refine .inr ⟨hmeasured, ?_⟩
    have hhalf : r.flow ≤ X * 2 :=
      hX.2.trans (mul_le_mul_of_nonneg_left (slack_pow_le_two (by decide)) hx.nonneg)
    linarith

theorem flow_nonneg_of_whole (hs : s.ticks = .whole n) : 0 ≤ s.flow := by
  rw [flow_of_whole hs]
  exact div_nonneg (Int.cast_nonneg s.amount_nonneg) (Int.cast_nonneg (whole_pos hs).le)

/-- What flows beyond all doubles can be measured. -/
theorem Ordinary.measured_of_beyond {c : ℚ} (hr : r.Ordinary) (hle : limit ≤ r.flow * c) : 4 * tiny ≤ r.flow := by
  refine hr.measured.resolve_left fun hzero => ?_
  rw [hzero, zero_mul] at hle
  exact absurd hle (not_le.2 (one_pos.trans_le one_le_limit))

/-- Over a demand that keeps its digits, a quotient of throughputs drifts, or is beyond all doubles. -/
theorem tells_of_regular {d : ℚ} (hr : r.Ordinary) (hx : r.throughput = .ok x) (hY : Stands y Y) (hpos : 0 < Y)
    (hwithin : Within 1 Y d) (hd : 0 < d) : Tells 4 (x / y) (r.flow / d) := by
  rcases throughput_within hr hx with ⟨X, hX, hdrift⟩ | ⟨hinfinite, hle⟩
  · have hquotient : Within (2 + 1) (X / Y) (r.flow / d) :=
      hdrift.div hwithin hX.nonneg hr.flow_nonneg hpos hd
    exact div_tells hX hY hpos hquotient
  · refine .full (hinfinite.div_stands hY hpos).size le_top ?_
    rw [div_mul_eq_mul_div, one_le_div₀ hd]
    calc d ≤ Y * slack ^ 1 := hwithin.2
      _ ≤ limit * slack ^ 1 := mul_le_mul_of_nonneg_right hY.lt_limit.le (slack_pow_pos 1).le
      _ ≤ r.flow * slack ^ 2 * slack ^ 1 := mul_le_mul_of_nonneg_right hle (slack_pow_pos 1).le
      _ = r.flow * slack ^ 3 := by ring
      _ ≤ r.flow * slack ^ 4 := mul_le_mul_of_nonneg_left
        (pow_le_pow_right₀ one_le_slack (by decide)) hr.flow_nonneg

/-- A quotient of nothing is nothing. -/
theorem stands_zero_div (hx : Stands x 0) (hy : Stands y Y) (hpos : 0 < Y) : Stands (x / y) 0 := by
  cases rounded_div hx hy hpos with
  | near stands near =>
    rw [zero_div] at near
    rwa [near.eq_zero rfl] at stands
  | beyond infinite hle =>
    rw [zero_div, zero_mul] at hle
    exact absurd hle (not_le.2 (one_pos.trans_le one_le_limit))

/-- Whatever can be measured at all is more than a demand that is all but nothing. -/
theorem tells_of_tiny {d : ℚ} (hr : r.Ordinary) (hx : r.throughput = .ok x) (hY : Stands y Y) (hpos : 0 < Y)
    (hsmall : 2 * Y ≤ 3 * tiny) (hd : 0 < d) (hdsmall : d ≤ tiny) : Tells 4 (x / y) (r.flow / d) := by
  have hfull (hmeasured : 4 * tiny ≤ r.flow) : 1 ≤ r.flow / d * slack ^ 4 := by
    refine one_le_mul_of_one_le_of_one_le ((one_le_div₀ hd).2 ?_) (one_le_slack_pow 4)
    linarith [tiny_pos]
  rcases throughput_within hr hx with ⟨X, hX, hdrift⟩ | ⟨hinfinite, hle⟩
  · rcases hr.eq_zero_or hX hdrift with ⟨rfl, hr0⟩ | ⟨hmeasured, hXlarge⟩
    · rw [hr0, zero_div]
      exact .near (stands_zero_div hX hY hpos) (.refl (le_refl 0))
    · have hquotient : 4 / 3 ≤ X / Y := by
        rw [le_div_iff₀ hpos]
        linarith
      have hregular : Regular (X / Y) := .inr (by linarith [tiny_le, tiny_pos])
      rcases (rounded_div hX hY hpos).within hregular with ⟨w, hw, hdrift⟩ | ⟨hinfinite, _⟩
      · refine .full hw.size (WithTop.coe_le_coe.2 ?_) (hfull hmeasured)
        have hback := hdrift.2
        rw [pow_one, slack] at hback
        linarith
      · exact .full hinfinite.size le_top (hfull hmeasured)
  · exact .full (hinfinite.div_stands hY hpos).size le_top (hfull (hr.measured_of_beyond hle))

/-- The ratio of a rate to one over a whole base, however long, tells the ratio of the flows. -/
theorem ratio_tells (hr : r.Ordinary) (hs : s.ticks = .whole n) (h : r.ratio s = .ok z) :
    0 < s.flow ∧ Tells 4 z (r.flow / s.flow) := by
  obtain ⟨x, y, hx, hy, rfl, hzero⟩ := ratio_eq_ok h
  obtain ⟨Y, hY, hnear⟩ := throughput_near hs hy
  have hYpos : 0 < Y := pos_of_beq_zero hY hzero
  have hpos : 0 < s.flow :=
    lt_of_le_of_ne (flow_nonneg_of_whole hs) fun hnone => hYpos.ne' (hnear.eq_zero hnone.symm)
  refine ⟨hpos, ?_⟩
  cases le_total tiny s.flow with
  | inl hregular => exact tells_of_regular hr hx hY hYpos (hnear.within (.inr hregular)) hpos
  | inr hsmall => exact tells_of_tiny hr hx hY hYpos (hnear.le_of_le_tiny hsmall) hpos hsmall

/-! ## Comparing with a tolerance -/

/-- The tolerance is `η` and below one, and what it leaves of one is `θ` as a double. -/
structure Tolerance (ε : Float) (η θ : ℚ) : Prop where
  stands : Stands ε η
  rest : Stands (1.0 - ε) θ
  within : Within 1 θ (1 - η)
  left : 1 / 2 ^ 53 ≤ 1 - η

theorem tiny_le_digit : 8 * tiny ≤ 1 / 2 ^ 53 := by
  have hpow : tiny ≤ 2 ^ (-56 : Int) := zpow_le_zpow_right₀ one_le_two (by decide)
  norm_num at hpow ⊢
  linarith

namespace Tolerance

variable {η θ : ℚ}

theorem le_slack (hε : Tolerance ε η θ) : θ ≤ slack ^ 1 := by
  have hη := hε.stands.nonneg
  exact hε.within.1.trans (mul_le_of_le_one_left (slack_pow_pos 1).le (by linarith))

theorem half_digit_le (hε : Tolerance ε η θ) : 1 / 2 ^ 54 ≤ θ := by
  have htwo := mul_le_mul_of_nonneg_left (slack_pow_le_two (k := 1) (by decide)) hε.rest.nonneg
  linarith [hε.left.trans (hε.within.2.trans htwo)]

theorem pos (hε : Tolerance ε η θ) : 0 < θ := lt_of_lt_of_le (by norm_num) hε.half_digit_le

theorem two_tiny_lt (hε : Tolerance ε η θ) : 2 * tiny < θ := by
  linarith [hε.half_digit_le, tiny_le_digit, tiny_pos]

end Tolerance

/-- A double below one leaves its last digit of one at the least. -/
theorem digit_le_one_sub (hx : Stands x X) (hone : X < 1) : 1 / 2 ^ 53 ≤ 1 - X := by
  rcases hx.digits with ⟨_, _, rfl⟩ | ⟨m, e, hm, _, rfl, hc, _⟩
  · norm_num
  have hneg : e < 0 := by
    refine lt_of_not_ge fun he => absurd hone (not_lt.2 ?_)
    exact one_le_mul_of_one_le_of_one_le (by exact_mod_cast hm) (one_le_zpow₀ one_le_two he)
  obtain ⟨k, rfl⟩ : ∃ k : Nat, e = -k := ⟨e.natAbs, by omega⟩
  rw [zpow_neg, zpow_natCast, ← div_eq_mul_inv] at hone ⊢
  have hpos : (0 : ℚ) < 2 ^ k := pow_pos two_pos k
  cases Nat.lt_or_ge 53 k with
  | inl hlong =>
    have hlt : (m : ℚ) ≤ 2 ^ 53 := by exact_mod_cast hc.lt.le
    have hhalf : (m : ℚ) / 2 ^ k ≤ 1 / 2 := by
      rw [div_le_div_iff₀ hpos two_pos]
      calc (m : ℚ) * 2 ≤ 2 ^ 53 * 2 := by gcongr
        _ = 2 ^ 54 := by norm_num
        _ ≤ 1 * 2 ^ k := by
          rw [one_mul]
          exact pow_le_pow_right₀ one_le_two hlong
    exact le_trans (by norm_num) (sub_le_sub_left hhalf 1)
  | inr hshort =>
    rw [div_lt_one hpos] at hone
    have hlt : (m : ℚ) + 1 ≤ 2 ^ k := by exact_mod_cast hone
    calc (1 / 2 ^ 53 : ℚ) ≤ 1 / 2 ^ k := one_div_le_one_div_of_le hpos (pow_le_pow_right₀ one_le_two hshort)
      _ ≤ 1 - m / 2 ^ k := by
        rw [le_sub_iff_add_le, ← add_div, div_le_one hpos]
        linarith

/-- From zero up to one, any double is a tolerance. -/
theorem exists_tolerance (hzero : 0.0 ≤ ε) (hone : ε < 1.0) : ∃ η θ, Tolerance ε η θ := by
  obtain ⟨v, hv⟩ := exists_size_of_nonneg hzero
  have hless := (lt_iff hv stands_one.size).1 hone
  obtain ⟨η, rfl⟩ := WithTop.ne_top_iff_exists.1 hless.ne_top
  have hη : Stands ε η := hv
  have hleft := digit_le_one_sub hη (WithTop.coe_lt_coe.1 hless)
  have hregular : Regular (1 - η) := .inr (by linarith [tiny_le_digit, tiny_pos])
  rcases (rounded_sub stands_one hη (by linarith [WithTop.coe_lt_coe.1 hless])).within hregular with
    ⟨θ, hθ, hwithin⟩ | ⟨_, hle⟩
  · exact ⟨η, θ, hη, hθ, hwithin, hleft⟩
  · have htwo : (1 - η) * slack ≤ 2 := by
      have hnonneg := hη.nonneg
      calc (1 - η) * slack ≤ 1 * 2 := mul_le_mul (by linarith) (by norm_num [slack]) slack_pos.le zero_le_one
        _ = 2 := one_mul 2
    have hlimit : (2 : ℚ) ^ 2 ≤ limit := two_pow_le_limit (by decide)
    exact absurd (hlimit.trans (hle.trans htwo)) (by norm_num)

/-- What a demand asks for, less the tolerance, is above nothing also as a double. -/
def Noticed (s : Rate) (ε : Float) : Prop := ∀ y, s.throughput = .ok y → (y * (1.0 - ε) == 0.0) = false

theorem isShortOf_eq_ok {b : Bool} (h : r.isShortOf s ε = .ok b) :
    ∃ x y, r.throughput = .ok x ∧ s.throughput = .ok y ∧ decide (x < y * (1.0 - ε)) = b := by
  obtain ⟨x, hx, h⟩ := Result.bind_eq_ok.1 h
  obtain ⟨y, hy, h⟩ := Result.bind_eq_ok.1 h
  exact ⟨x, y, hx, hy, Result.pure_eq_ok.1 h⟩

/-- A demand that keeps its digits, less the tolerance, is noticed. -/
theorem noticed_of_le {η θ : ℚ} (hε : Tolerance ε η θ) (hs : s.ticks = .whole n) (h : 8 * tiny ≤ θ * s.flow) :
    s.Noticed ε := by
  intro y hy
  obtain ⟨Y, hY, hnear⟩ := throughput_near hs hy
  have htwo : slack ^ 1 ≤ 2 := slack_pow_le_two (by decide)
  have hflow : 8 * tiny ≤ 2 * s.flow :=
    h.trans (mul_le_mul_of_nonneg_right (hε.le_slack.trans htwo) (flow_nonneg_of_whole hs))
  have hwithin := hnear.within (.inr (by linarith [tiny_pos]))
  have hproduct : 8 * tiny ≤ Y * θ * 2 := by
    calc 8 * tiny ≤ θ * s.flow := h
      _ ≤ θ * (Y * slack ^ 1) := mul_le_mul_of_nonneg_left hwithin.2 hε.pos.le
      _ = Y * θ * slack ^ 1 := by ring
      _ ≤ Y * θ * 2 := mul_le_mul_of_nonneg_left htwo (mul_nonneg hY.nonneg hε.pos.le)
  refine Bool.eq_false_iff.2 fun hzero => ?_
  rcases (rounded_mul hY hε.rest).within (.inr (by linarith [tiny_pos])) with ⟨w, hw, hdrift⟩ | ⟨hinfinite, _⟩
  · obtain rfl := hw.beq_zero_iff.1 hzero
    have := hdrift.2
    linarith [tiny_pos]
  · cases hinfinite.beq_zero.symm.trans hzero

/-- What flows beyond all doubles meets a demand that is one. -/
theorem demand_le_of_beyond {η θ d : ℚ} (hε : Tolerance ε η θ) (hY : Stands y Y) (hd : 0 ≤ d)
    (hmeasured : d ≤ Y * slack ^ 1) (hle : limit ≤ q * slack ^ 2) : θ * d ≤ q * slack ^ 4 := by
  have hslack := (slack_pow_pos 1).le
  calc θ * d ≤ slack ^ 1 * d := mul_le_mul_of_nonneg_right hε.le_slack hd
    _ ≤ slack ^ 1 * (Y * slack ^ 1) := mul_le_mul_of_nonneg_left hmeasured hslack
    _ ≤ slack ^ 1 * (limit * slack ^ 1) := by gcongr; exact hY.lt_limit.le
    _ ≤ slack ^ 1 * (q * slack ^ 2 * slack ^ 1) := by gcongr
    _ = q * slack ^ 4 := by ring

/-- What is at least the demand less the tolerance, as doubles, is hardly less. -/
theorem demand_le_of_le {η θ d w : ℚ} (hε : Tolerance ε η θ) (hmeasured : d ≤ Y * slack ^ 1)
    (hw : Within 1 w (Y * θ)) (hle : w ≤ X) (hX : X ≤ q * slack ^ 2) : θ * d ≤ q * slack ^ 4 := by
  have hslack := (slack_pow_pos 1).le
  calc θ * d ≤ θ * (Y * slack ^ 1) := mul_le_mul_of_nonneg_left hmeasured hε.pos.le
    _ = Y * θ * slack ^ 1 := by ring
    _ ≤ w * slack ^ 1 * slack ^ 1 := mul_le_mul_of_nonneg_right hw.2 hslack
    _ ≤ X * slack ^ 1 * slack ^ 1 := by gcongr
    _ ≤ q * slack ^ 2 * slack ^ 1 * slack ^ 1 := by gcongr
    _ = q * slack ^ 4 := by ring

/-- A rate that does not fall short of a demand meets what the tolerance leaves of it, up to a few roundings. -/
theorem le_of_not_short {η θ : ℚ} (hε : Tolerance ε η θ) (hr : r.Ordinary) (hs : s.ticks = .whole n)
    (hsome : s.Noticed ε) (h : r.isShortOf s ε = .ok false) : θ * s.flow ≤ r.flow * slack ^ 8 := by
  obtain ⟨x, y, hx, hy, hnot⟩ := isShortOf_eq_ok h
  have hnot := of_decide_eq_false hnot
  obtain ⟨Y, hY, hnear⟩ := throughput_near hs hy
  have hnonneg := flow_nonneg_of_whole hs
  refine (le_total _ _).elim id fun hless => ?_
  -- What flows is less than what is demanded, so both are measured together.
  have hflow : r.flow ≤ s.flow := by
    refine le_of_mul_le_mul_right ?_ (slack_pow_pos 1)
    calc r.flow * slack ^ 1 ≤ r.flow * slack ^ 8 :=
          mul_le_mul_of_nonneg_left (pow_le_pow_right₀ one_le_slack (by decide)) hr.flow_nonneg
      _ ≤ θ * s.flow := hless
      _ ≤ slack ^ 1 * s.flow := mul_le_mul_of_nonneg_right hε.le_slack hnonneg
      _ = s.flow * slack ^ 1 := mul_comm _ _
  have hmeasured (hr4 : 4 * tiny ≤ r.flow) : s.flow ≤ Y * slack ^ 1 :=
    (hnear.within (.inr (by linarith [tiny_pos]))).2
  have hfour : r.flow * slack ^ 4 ≤ r.flow * slack ^ 8 :=
    mul_le_mul_of_nonneg_left (pow_le_pow_right₀ one_le_slack (by decide)) hr.flow_nonneg
  refine le_trans ?_ hfour
  rcases throughput_within hr hx with ⟨X, hX, hXdrift⟩ | ⟨_, hle⟩
  swap
  · exact demand_le_of_beyond hε hY hnonneg (hmeasured (hr.measured_of_beyond hle)) hle
  cases rounded_mul hY hε.rest with
  | beyond infinite _ => exact absurd ((lt_iff hX.size infinite.size).2 (WithTop.coe_lt_top X)) hnot
  | @near w stands near =>
    have hwX : w ≤ X := not_lt.1 fun hlt => hnot ((lt_iff hX.size stands.size).2 (WithTop.coe_lt_coe.2 hlt))
    have hwpos : 0 < w := pos_of_beq_zero stands (hsome y hy)
    have hr4 := hr.measured.resolve_left fun hzero => by
      have hX0 : X ≤ 0 := hXdrift.1.trans_eq (by rw [hzero, zero_mul])
      exact absurd (hwpos.trans_le (hwX.trans hX0)) (lt_irrefl 0)
    have hregular : Regular (Y * θ) := by
      have hlarge := (le_mul_of_one_le_right hr.flow_nonneg (one_le_slack_pow 8)).trans hless
      have hproduct : θ * s.flow ≤ Y * θ * 2 := by
        calc θ * s.flow ≤ θ * (Y * slack ^ 1) := mul_le_mul_of_nonneg_left (hmeasured hr4) hε.pos.le
          _ = Y * θ * slack ^ 1 := by ring
          _ ≤ Y * θ * 2 :=
            mul_le_mul_of_nonneg_left (slack_pow_le_two (by decide)) (mul_nonneg hY.nonneg hε.pos.le)
      exact .inr (by linarith [tiny_pos])
    exact demand_le_of_le hε (hmeasured hr4) (near.within hregular) hwX hXdrift.1

/-! ## The default tolerance -/

/-- The exact value of the default tolerance. -/
def tolerance : ℚ := 4835703278458517 * 2 ^ (-82 : Int)

/-- The exact value of one less the default tolerance. -/
def enough : ℚ := 9007199245733793 * 2 ^ (-53 : Int)

/-- What is left of a demand that is met, after the tolerance and a few roundings. -/
def kept : ℚ := (1 - 1 / 10 ^ 9) / slack ^ 8

theorem stands_tolerance : Stands defaultEpsilon tolerance := by
  have hunpack : defaultEpsilon.toModel.unpack =
      .finite .positive 4835703278458517 (-82) (by decide) := rfl
  unfold Stands
  rw [hunpack]
  exact .finite _ _ _

theorem stands_enough : Stands (1.0 - defaultEpsilon) enough := by
  have hunpack : (1.0 - defaultEpsilon).toModel.unpack =
      .finite .positive 9007199245733793 (-53) (by decide) := rfl
  unfold Stands
  rw [hunpack]
  exact .finite _ _ _

theorem defaultTolerance : Tolerance defaultEpsilon tolerance enough where
  stands := stands_tolerance
  rest := stands_enough
  within := by constructor <;> norm_num [enough, tolerance, slack]
  left := by norm_num [tolerance]

theorem le_enough : 1 - 1 / 10 ^ 9 ≤ enough := by
  norm_num [enough]

theorem three_quarters_le_enough : 3 / 4 ≤ enough := le_trans (by norm_num) le_enough

theorem enough_le_one : enough ≤ 1 := by
  norm_num [enough]

theorem tolerance_le : tolerance ≤ 1 / 8 := by
  norm_num [tolerance]

theorem kept_nonneg : 0 ≤ kept := div_nonneg (by norm_num) (slack_pow_pos 8).le

theorem kept_le_one : kept ≤ 1 :=
  div_le_one_of_le₀ (le_trans (by norm_num) (one_le_slack_pow 8)) (slack_pow_pos 8).le

theorem kept_le_enough : kept ≤ enough := (div_le_self (by norm_num) (one_le_slack_pow 8)).trans le_enough

/-- A demand that is met within the default tolerance up to eight roundings is met as far as counts. -/
theorem kept_mul_le {d q : ℚ} (hd : 0 ≤ d) (h : enough * d ≤ q * slack ^ 8) : kept * d ≤ q := by
  rw [kept, div_mul_eq_mul_div, div_le_iff₀ (slack_pow_pos 8)]
  exact (mul_le_mul_of_nonneg_right le_enough hd).trans h

/-- A double above zero is at least the smallest one. -/
theorem two_grain_le (hx : Stands x X) (hpos : 0 < X) : 2 * grain ≤ X := by
  rcases hx.digits with ⟨_, _, rfl⟩ | ⟨m, e, hm, _, rfl, hc, _⟩
  · exact absurd hpos (lt_irrefl 0)
  · have hone : (1 : ℚ) ≤ m := by exact_mod_cast hm
    have hgrain : 2 * grain = 2 ^ (-1074 : Int) := by
      rw [grain, ← zpow_one_add₀ two_ne_zero]
      rfl
    calc 2 * grain = 2 ^ (-1074 : Int) := hgrain
      _ ≤ 2 ^ e := zpow_le_zpow_right₀ one_le_two hc.le
      _ ≤ m * 2 ^ e := le_mul_of_one_le_left (by positivity) hone

/-- Whatever is above nothing as a double still is less the default tolerance. -/
theorem noticed_default (hs : s.ticks = .whole n) (hsome : ∀ y, s.throughput = .ok y → (y == 0.0) = false) :
    s.Noticed defaultEpsilon := by
  intro y hy
  obtain ⟨Y, hY, _⟩ := throughput_near hs hy
  have hpos := pos_of_beq_zero hY (hsome y hy)
  cases rounded_mul hY stands_enough with
  | beyond infinite _ => exact infinite.beq_zero
  | @near w stands near =>
    refine Bool.eq_false_iff.2 fun hzero => ?_
    obtain rfl := stands.beq_zero_iff.1 hzero
    have hgrain := two_grain_le hY hpos
    have hproduct : Y * (3 / 4) ≤ Y * enough :=
      mul_le_mul_of_nonneg_left three_quarters_le_enough hpos.le
    have herror := near.error
    rw [zero_sub, abs_neg, abs_of_nonneg (by linarith)] at herror
    rcases le_max_iff.1 herror with hle | hle <;> linarith [grain_pos]

end Rate

end Conveyor
