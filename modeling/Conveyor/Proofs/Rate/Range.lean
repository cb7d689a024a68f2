-- SUMMARY: Rates whose bases and flows are far below the largest double can be added, scaled and compared.
import Conveyor.Proofs.Rate.Raise

/-!
# Rates within range

Amounts and periods have no bound, doubles have one, so arithmetic on rates may have no result. It has
one as long as bases and flows stay far enough below the largest double. A sum may be over a base as long
as both bases multiplied, so what a rate comes to is counted in powers of one number, and the powers add
up.
-/

namespace Conveyor

open Binary64

variable {x y e : Float} {X Y W η q c : ℚ} {m n k : Int} {b d f g : Nat}

/-! ## Integers and doubles -/

theorem exists_toDouble_rounded (hn : 0 ≤ n) (h : (n : ℚ) ≤ room) : ∃ x, toDouble n = .ok x ∧ Rounded x n := by
  obtain ⟨k, rfl⟩ := Int.eq_ofNat_of_zero_le hn
  rw [Int.cast_natCast] at h ⊢
  have hround := rounded_ofInt k
  refine ⟨_, ?_, hround⟩
  unfold toDouble ofInt?
  rw [(finite?_of_rounded hround h).1]

theorem exists_toDouble (hn : 0 ≤ n) (h : (n : ℚ) ≤ room) :
    ∃ x w, toDouble n = .ok x ∧ Stands x w ∧ Within 1 w n := by
  obtain ⟨x, hx, _⟩ := exists_toDouble_rounded hn h
  obtain ⟨w, hw⟩ := Rate.toDouble_within hn hx
  exact ⟨x, w, hx, hw⟩

theorem exists_divideInts (hm : 0 ≤ m) (hn : 0 < n) (h : (m / n : ℚ) ≤ room) :
    ∃ x, divideInts m n = .ok x ∧ Rounded x (m / n) := by
  obtain ⟨k, rfl⟩ := Int.eq_ofNat_of_zero_le hm
  obtain ⟨l, rfl⟩ := Int.eq_ofNat_of_zero_le hn.le
  rw [Int.cast_natCast, Int.cast_natCast] at h ⊢
  have hround := rounded_quotient k (Int.natCast_pos.1 hn)
  refine ⟨_, ?_, hround⟩
  unfold divideInts quotient?
  rw [if_neg hn.ne', (finite?_of_rounded hround h).1]

theorem divideDoubles_of_pos (hy : Stands y Y) (hpos : 0 < Y) : divideDoubles x y = .ok (x / y) :=
  if_neg fun hzero => hpos.ne' (hy.beq_zero_iff.1 hzero)

/-- A value within the room is a long way from an infinity. -/
theorem Binary64.not_limit_le {j : Nat} (hj : j ≤ 16) (hq : q ≤ room) : ¬ limit ≤ q * slack ^ j := by
  have hfar : q * slack ^ j ≤ room * 2 ^ 16 :=
    mul_le_mul hq ((slack_pow_le_two hj).trans (by norm_num)) (slack_pow_pos j).le room_pos.le
  exact not_le.2 (hfar.trans_lt room_lt_limit)

/-- What is above nothing by as much as the room allows keeps its digits. -/
theorem Binary64.measured_of_room (h : 1 ≤ q * room) : 4 * tiny ≤ q := by
  refine le_of_mul_le_mul_right ?_ room_pos
  calc 4 * tiny * room ≤ 4 * tiny * limit :=
        mul_le_mul_of_nonneg_left room_le_limit (mul_pos four_pos tiny_pos).le
    _ = 1 := by rw [← tiny_mul_limit]; ring
    _ ≤ q * room := h

theorem Binary64.tiny_le_eighth : 4 * tiny ≤ 1 / 8 := by
  have hpow : tiny ≤ 2 ^ (-5 : Int) := zpow_le_zpow_right₀ one_le_two (by decide)
  norm_num at hpow
  linarith

/-- A finite double is rounded up to less than one above it. -/
theorem Binary64.Stands.exists_ceiling (hx : Stands x X) : ∃ k, ceiling x = .ok k ∧ (k : ℚ) < X + 1 := by
  obtain ⟨r, hr, rfl⟩ := hx.exists_fraction
  refine ⟨r.ceil, ?_, ?_⟩
  · unfold ceiling finiteFraction
    rw [hr]
    rfl
  · have hden : 0 < (r.den : Int) := Int.natCast_pos.2 r.den_pos
    have hfloor : r.ceil * r.den < r.num + r.den := by
      unfold Fraction.ceil
      rw [Int.fdiv_eq_ediv_of_nonneg _ hden.le]
      have := Int.lt_ediv_add_one_mul_self (-r.num) hden
      linarith
    have hpos : (0 : ℚ) < r.den := by exact_mod_cast r.den_pos
    rw [div_add_one hpos.ne', lt_div_iff₀ hpos]
    exact_mod_cast hfloor

namespace Rate

variable {r s : Rate}

/-! ## What a rate comes to -/

/-- The tick base is a value, and it and the flow are at most powers of `c`. -/
structure Fits (c : ℚ) (b f : Nat) (r : Rate) : Prop where
  base : r.ticks.IsBase
  stays : ¬ r.Stops
  ticks_le : r.ticks.value ≤ c ^ b
  flow_le : r.flow ≤ c ^ f

theorem value_pos (hbase : r.ticks.IsBase) (hstays : ¬ r.Stops) : 0 < r.ticks.value := by
  cases hticks : r.ticks with
  | whole n => exact Int.cast_pos.2 (whole_pos hticks)
  | real x =>
    rcases flow_of_real hticks hbase with ⟨τ, hτ, hpos, _⟩ | ⟨hinfinite, _⟩
    · exact hpos.trans_eq hτ.value_eq.symm
    · exact absurd ⟨x, hticks, hinfinite⟩ hstays

theorem exists_make (hW : Stands x W) (hpos : 0 < W) (hn : 0 ≤ n) : ∃ t, make n (.real x) = .ok t := by
  have hticks : (Number.real x).IsPositive := fun hle => not_le.2 hpos (hW.le_zero_iff.1 hle)
  exact ⟨_, make_eq_ok ⟨n, .real x, hn, hticks⟩⟩

theorem not_stops_zero : ¬ zero.Stops := fun ⟨_, hticks, _⟩ => nomatch hticks

theorem fits_zero (c : ℚ) (b f : Nat) (hc : 1 ≤ c) : zero.Fits c b f where
  base := trivial
  stays := not_stops_zero
  ticks_le := (Int.cast_one (R := ℚ)).trans_le (one_le_pow₀ hc)
  flow_le := flow_zero.trans_le (zero_le_one.trans (one_le_pow₀ hc))

namespace Fits

variable (hr : r.Fits c b f)
include hr

theorem value_pos : 0 < r.ticks.value := Rate.value_pos hr.base hr.stays

theorem amount_eq : (r.amount : ℚ) = r.flow * r.ticks.value := by
  rw [flow, div_mul_cancel₀ _ hr.value_pos.ne']

theorem flow_nonneg : 0 ≤ r.flow := div_nonneg (Int.cast_nonneg r.amount_nonneg) hr.value_pos.le

theorem amount_le : (r.amount : ℚ) ≤ c ^ (b + f) := by
  rw [hr.amount_eq, pow_add, mul_comm]
  exact mul_le_mul hr.ticks_le hr.flow_le hr.flow_nonneg (hr.value_pos.le.trans hr.ticks_le)

/-- What flows at all is no less than one unit over the longest base. -/
theorem one_le_flow_mul (hsome : r.isZero = false) : 1 ≤ r.flow * c ^ b :=
  calc (1 : ℚ) ≤ r.amount := amount_pos hsome
    _ = r.flow * r.ticks.value := hr.amount_eq
    _ ≤ r.flow * c ^ b := mul_le_mul_of_nonneg_left hr.ticks_le hr.flow_nonneg

theorem flow_pos (hsome : r.isZero = false) : 0 < r.flow :=
  div_pos (one_pos.trans_le (amount_pos hsome)) hr.value_pos

theorem mono (hc : 1 ≤ c) (hb : b ≤ d) (hf : f ≤ g) : r.Fits c d g where
  base := hr.base
  stays := hr.stays
  ticks_le := hr.ticks_le.trans (pow_le_pow_right₀ hc hb)
  flow_le := hr.flow_le.trans (pow_le_pow_right₀ hc hf)

theorem ordinary (hroom : c ^ b ≤ room) : r.Ordinary :=
  ⟨hr.base, r.quotient_measured hr.value_pos (hr.ticks_le.trans (hroom.trans room_le_limit))⟩

end Fits

/-- A quotient within the room is no infinity. -/
theorem exists_div_within {k l : Nat} (hl : l = 1 + k) (hsmall : l ≤ 16) (hx : Stands x X) (hy : Stands y Y)
    (hpos : 0 < Y) (hq : Within k (X / Y) q) (hregular : Regular (X / Y)) (hroom : q ≤ room) :
    ∃ w, Stands (x / y) w ∧ Within l w q :=
  (div_within hl hx hy hpos hq hregular).resolve_right fun h => not_limit_le hsmall hroom h.2

theorem pow_le_room {i j : Nat} (hc : 1 ≤ c) (hroom : c ^ j ≤ room) (hij : i ≤ j) : c ^ i ≤ room :=
  (pow_le_pow_right₀ hc hij).trans hroom

/-! ## Throughput -/

theorem Fits.exists_throughput (hc : 1 ≤ c) (hr : r.Fits c b f) (hroom : c ^ (b + f) ≤ room) :
    ∃ x X, r.throughput = .ok x ∧ Stands x X ∧ Within 2 X r.flow := by
  have hflow : r.flow ≤ room := hr.flow_le.trans (pow_le_room hc hroom (Nat.le_add_left f b))
  have hordinary := hr.ordinary (pow_le_room hc hroom (Nat.le_add_right b f))
  have hok : ∃ x, r.throughput = .ok x := by
    cases hticks : r.ticks with
    | whole n =>
      obtain ⟨x, hx, _⟩ := exists_divideInts r.amount_nonneg (whole_pos hticks)
        ((flow_of_whole hticks).symm.trans_le hflow)
      rw [throughput, hticks]
      exact ⟨x, hx⟩
    | real x =>
      rcases flow_of_real hticks hr.base with ⟨τ, hτ, hpos, _⟩ | ⟨hinfinite, _⟩
      · obtain ⟨a, _, ha, _⟩ := exists_toDouble r.amount_nonneg (hr.amount_le.trans hroom)
        refine ⟨a / x, ?_⟩
        rw [throughput, hticks]
        exact Result.bind_eq_ok.2 ⟨a, ha, Result.bind_eq_ok.2 ⟨x, rfl, divideDoubles_of_pos hτ hpos⟩⟩
      · exact absurd ⟨x, hticks, hinfinite⟩ hr.stays
  obtain ⟨x, hx⟩ := hok
  rcases throughput_within hordinary hx with ⟨X, hX, hwithin⟩ | ⟨_, hle⟩
  · exact ⟨x, X, hx, hX, hwithin⟩
  · exact absurd hle (not_limit_le (by decide) hflow)

theorem Fits.exists_isShortOf (hc : 1 ≤ c) (hr : r.Fits c b f) (hs : s.Fits c d g)
    (hroom : c ^ (b + f) ≤ room) (hroom' : c ^ (d + g) ≤ room) (ε : Float) :
    ∃ short, r.isShortOf s ε = .ok short := by
  obtain ⟨x, _, hx, _⟩ := hr.exists_throughput hc hroom
  obtain ⟨y, _, hy, _⟩ := hs.exists_throughput hc hroom'
  exact ⟨_, Result.bind_eq_ok.2 ⟨x, hx, Result.bind_eq_ok.2 ⟨y, hy, rfl⟩⟩⟩

/-- The ratio of two rates drifts by five roundings. -/
theorem Fits.exists_ratio (hc : 1 ≤ c) (hr : r.Fits c b f) (hs : s.Fits c d g) (hsome : s.isZero = false)
    (hroom : c ^ (max b d + max f g) ≤ room) :
    ∃ z w, r.ratio s = .ok z ∧ Stands z w ∧ Within 5 w (r.flow / s.flow) := by
  have hpow {i j : Nat} (hi : i ≤ max b d) (hj : j ≤ max f g) : c ^ (i + j) ≤ room :=
    pow_le_room hc hroom (Nat.add_le_add hi hj)
  obtain ⟨x, X, hx, hX, hXr⟩ := hr.exists_throughput hc (hpow (le_max_left _ _) (le_max_left _ _))
  obtain ⟨y, Y, hy, hY, hYs⟩ := hs.exists_throughput hc (hpow (le_max_right _ _) (le_max_right _ _))
  have hspos := hs.flow_pos hsome
  have hYpos := hYs.pos hspos
  have hquotient : Within (2 + 2) (X / Y) (r.flow / s.flow) :=
    hXr.div hYs hX.nonneg hr.flow_nonneg hYpos hspos
  have hmeasured : r.flow / s.flow = 0 ∨ 4 * tiny ≤ r.flow / s.flow := by
    cases hzero : r.isZero with
    | true => exact .inl (by rw [flow_of_isZero hzero, zero_div])
    | false =>
      refine .inr (measured_of_room ?_)
      rw [div_mul_eq_mul_div, one_le_div₀ hspos]
      calc s.flow ≤ c ^ g := hs.flow_le
        _ ≤ r.flow * c ^ b * c ^ g :=
          le_mul_of_one_le_left (pow_nonneg (zero_le_one.trans hc) g) (hr.one_le_flow_mul hzero)
        _ = r.flow * c ^ (b + g) := by rw [pow_add, mul_assoc]
        _ ≤ r.flow * room :=
          mul_le_mul_of_nonneg_left (hpow (le_max_left _ _) (le_max_right _ _)) hr.flow_nonneg
  have hregular := hquotient.regular (by decide) (div_nonneg hX.nonneg hYpos.le) hmeasured
  have hbound : r.flow / s.flow ≤ room := by
    rw [div_le_iff₀ hspos]
    calc r.flow ≤ c ^ f := hr.flow_le
      _ ≤ c ^ f * (s.flow * c ^ d) :=
        le_mul_of_one_le_right (pow_nonneg (zero_le_one.trans hc) f) (hs.one_le_flow_mul hsome)
      _ = c ^ (d + f) * s.flow := by rw [pow_add]; ring
      _ ≤ room * s.flow :=
        mul_le_mul_of_nonneg_right (hpow (le_max_right _ _) (le_max_left _ _)) hspos.le
  obtain ⟨w, hw, hwithin⟩ := exists_div_within (l := 5) rfl (by decide) hX hY hYpos hquotient hregular hbound
  refine ⟨x / y, w, ?_, hw, hwithin⟩
  unfold ratio
  rw [hsome]
  exact Result.bind_eq_ok.2 ⟨x, hx, Result.bind_eq_ok.2 ⟨y, hy, divideDoubles_of_pos hY hYpos⟩⟩

/-! ## Copies and efficiencies -/

theorem Fits.exists_times (hr : r.Fits c b f) (hk : 1 ≤ k) (hflow : r.flow * k ≤ c ^ g) :
    ∃ t, r.times k = .ok t ∧ t.Fits c b g :=
  ⟨_, times_of_pos hk, hr.base, hr.stays, hr.ticks_le, (flow_times (times_of_pos hk)).trans_le hflow⟩

/-- A rate at an efficiency is over a longer base, but for two roundings. -/
theorem exists_stretch (hticks : r.ticks = .whole n) (he : Stands e η) (hone : η ≤ 1) (hn : (n : ℚ) ≤ room)
    (hbase : η = 0 ∨ n / η ≤ room) :
    ∃ s, r.stretch e = .ok s ∧ s.ticks.IsBase ∧ ¬ s.Stops ∧
      s.ticks.value ≤ max 1 (n / η * slack ^ 2) ∧ Within 2 s.flow (r.flow * η) := by
  cases Decidable.em (e ≤ 0.0 ∨ r.isZero = true) with
  | inl hnone =>
    refine ⟨zero, stretch_of_nothing hnone, trivial, not_stops_zero, ?_, ?_⟩
    · exact (Int.cast_one (R := ℚ)).trans_le (le_max_left _ _)
    · rw [flow_mul_eq_zero he hnone, flow_zero]
      exact .refl (le_refl 0)
  | inr hsome =>
    have hη := pos_of_some he hsome
    have hbound := hbase.resolve_left hη.ne'
    have hcount : (1 : ℚ) ≤ n := by exact_mod_cast whole_pos hticks
    obtain ⟨x, τ, hx, hτ, hwithin⟩ := exists_toDouble (whole_pos hticks).le hn
    obtain ⟨w, hw, hpos, hdrift⟩ := (base_div_within hτ hwithin hcount he hη hone).resolve_right
      fun hbeyond => Binary64.not_limit_le (by decide) hbound hbeyond.2
    obtain ⟨s, hs⟩ := exists_make hw hpos r.amount_nonneg
    obtain ⟨hamount, hbase⟩ := of_make hs
    have hvalue : s.ticks.value = w := by
      rw [hbase]
      exact hw.value_eq
    refine ⟨s, ?_, hbase ▸ ⟨_, hw.size⟩, ?_, ?_, flow_within hticks hη hpos hamount hvalue hdrift⟩
    · rw [stretch_of_some hsome, hticks]
      exact Result.bind_eq_ok.2 ⟨x / e, Result.bind_eq_ok.2 ⟨x, hx, Result.bind_eq_ok.2
        ⟨e, rfl, divideDoubles_of_pos he hη⟩⟩, hs⟩
    · rintro ⟨z, hz, hinfinite⟩
      obtain rfl := Number.real.inj (hbase.symm.trans hz)
      exact hw.not_isInfinite hinfinite
    · rw [hvalue]
      exact hdrift.1.trans (le_max_right _ _)

/-! ## Sums -/

theorem Fits.exists_integer? (hr : r.Fits c b f) (hroom : c ^ b ≤ room) : ∃ whole?, r.ticks.integer? = .ok whole? := by
  have hdouble : ∃ x, r.ticks.double = .ok x := by
    cases hticks : r.ticks with
    | whole n =>
      have hvalue : (n : ℚ) = r.ticks.value := by
        rw [hticks]
        rfl
      obtain ⟨x, _, hx, _⟩ := exists_toDouble (whole_pos hticks).le (hvalue.trans_le (hr.ticks_le.trans hroom))
      exact ⟨x, hx⟩
    | real x => exact ⟨x, rfl⟩
  obtain ⟨x, hx⟩ := hdouble
  exact ⟨_, Result.bind_eq_ok.2 ⟨x, hx, rfl⟩⟩

theorem Fits.exists_wholeBases? (hr : r.Fits c b f) (hs : s.Fits c d g) (hb : c ^ b ≤ room) (hd : c ^ d ≤ room) :
    ∃ bases, r.wholeBases? s = .ok bases := by
  obtain ⟨first, hfirst⟩ := hr.exists_integer? hb
  cases first with
  | none => exact ⟨none, Result.bind_eq_ok.2 ⟨none, hfirst, rfl⟩⟩
  | some m =>
    obtain ⟨second, hsecond⟩ := hs.exists_integer? hd
    exact ⟨_, Result.bind_eq_ok.2 ⟨some m, hfirst, Result.bind_eq_ok.2 ⟨second, hsecond, rfl⟩⟩⟩

/-- Over whole bases the longest base that a sum needs is both bases multiplied. -/
theorem Fits.exists_addWhole (hc : 1 ≤ c) (hr : r.Fits c b f) (hs : s.Fits c d g) {j : Nat} (hsum : c ^ f + c ^ g ≤ c ^ j)
    (hm : r.ticks.integer? = .ok (some m)) (hn : s.ticks.integer? = .ok (some n)) :
    ∃ t, r.addWhole s m n = .ok t ∧ t.Fits c (b + d) j ∧ t.flow = r.flow + s.flow := by
  have hmpos := integer?_pos hr.base hm
  have hnpos := integer?_pos hs.base hn
  have hmvalue := Number.value_eq_of_integer? hm
  have hnvalue := Number.value_eq_of_integer? hn
  have hbase : (0 : Int) < Int.lcm m n := Int.natCast_pos.2 (Int.lcm_pos hmpos.ne' hnpos.ne')
  have hamount : 0 ≤ r.amount * (Int.lcm m n / m) + s.amount * (Int.lcm m n / n) :=
    Int.add_nonneg (Int.mul_nonneg r.amount_nonneg (Int.ediv_nonneg hbase.le hmpos.le))
      (Int.mul_nonneg s.amount_nonneg (Int.ediv_nonneg hbase.le hnpos.le))
  obtain ⟨t, ht⟩ : ∃ t, r.addWhole s m n = .ok t :=
    ⟨_, make_eq_ok ⟨_, .whole (Int.lcm m n), hamount, hbase⟩⟩
  obtain ⟨hticks, hflow⟩ := flow_addWhole hmpos hnpos hmvalue hnvalue ht
  have hvalue : t.ticks.value = (Int.lcm m n : Int) := by
    rw [hticks]
    rfl
  refine ⟨t, ht, ⟨hticks ▸ trivial, ?_, ?_, ?_⟩, hflow⟩
  · rintro ⟨_, hreal, _⟩
    rw [hticks] at hreal
    cases hreal
  · have hproduct : ((Int.lcm m n : Int) : ℚ) ≤ m * n := by
      exact_mod_cast Int.le_of_dvd (Int.mul_pos hmpos hnpos) (Int.lcm_dvd_mul m n)
    rw [hvalue]
    calc ((Int.lcm m n : Int) : ℚ) ≤ m * n := hproduct
      _ = r.ticks.value * s.ticks.value := by rw [hmvalue, hnvalue]
      _ ≤ c ^ b * c ^ d :=
        mul_le_mul hr.ticks_le hs.ticks_le hs.value_pos.le (pow_nonneg (zero_le_one.trans hc) b)
      _ = c ^ (b + d) := (pow_add c b d).symm
  · rw [hflow]
    exact (add_le_add hr.flow_le hs.flow_le).trans hsum

/-- Both amounts together are no more than what flows over half the longest base. -/
theorem Fits.amounts_le (hc : 2 ≤ c) (hr : r.Fits c b f) (hs : s.Fits c d g) (hb : 1 ≤ b) (hd : 1 ≤ d) :
    ((r.amount + s.amount : Int) : ℚ) * 2 ≤ (r.flow + s.flow) * c ^ (b + d) := by
  have hc1 : 1 ≤ c := one_le_two.trans hc
  have hhalf {i : Nat} (hi : i + 1 ≤ b + d) : c ^ i * 2 ≤ c ^ (b + d) :=
    calc c ^ i * 2 ≤ c ^ i * c := mul_le_mul_of_nonneg_left hc (pow_nonneg (zero_le_one.trans hc1) i)
      _ = c ^ (i + 1) := (pow_succ c i).symm
      _ ≤ c ^ (b + d) := pow_le_pow_right₀ hc1 hi
  have hleft : r.ticks.value * 2 ≤ c ^ (b + d) := by linarith [hr.ticks_le, hhalf (i := b) (by omega)]
  have hright : s.ticks.value * 2 ≤ c ^ (b + d) := by linarith [hs.ticks_le, hhalf (i := d) (by omega)]
  rw [Int.cast_add, hr.amount_eq, hs.amount_eq, add_mul, add_mul, mul_assoc, mul_assoc]
  exact add_le_add (mul_le_mul_of_nonneg_left hleft hr.flow_nonneg)
    (mul_le_mul_of_nonneg_left hright hs.flow_nonneg)

/-- Two throughputs can be added, and their sum drifts by three roundings. -/
theorem Fits.exists_throughputs (hc : 1 ≤ c) (hr : r.Fits c b f) (hs : s.Fits c d g)
    (hroom : c ^ (b + f) ≤ room) (hroom' : c ^ (d + g) ≤ room) (hflow : r.flow + s.flow ≤ room) :
    ∃ x y Z, r.throughput = .ok x ∧ s.throughput = .ok y ∧ Stands (x + y) Z ∧ Within 3 Z (r.flow + s.flow) := by
  obtain ⟨x, X, hx, hX, hXr⟩ := hr.exists_throughput hc hroom
  obtain ⟨y, Y, hy, hY, hYs⟩ := hs.exists_throughput hc hroom'
  have hpair : Within 2 (X + Y) (r.flow + s.flow) := hXr.add hYs
  have hregular : Regular (X + Y) := by
    refine hpair.regular (by decide) (add_nonneg hX.nonneg hY.nonneg) ?_
    exact (hr.ordinary (pow_le_room hc hroom (Nat.le_add_right b f))).measured_add
      (hs.ordinary (pow_le_room hc hroom' (Nat.le_add_right d g)))
  rcases (rounded_add hX hY).within hregular with ⟨Z, hZ, hround⟩ | ⟨_, hle⟩
  · have hdrift : Within (1 + 2) Z (r.flow + s.flow) := hround.trans hpair
    exact ⟨x, y, Z, hx, hy, hZ, hdrift⟩
  · have hfar : limit ≤ (r.flow + s.flow) * slack ^ 3 := by
      refine hle.trans ((mul_le_mul_of_nonneg_right hpair.1 slack_pos.le).trans_eq ?_)
      ring
    exact absurd hfar (not_limit_le (by decide) hflow)

/-- Both amounts together have a double. -/
theorem Fits.exists_amounts (hc : 2 ≤ c) (hr : r.Fits c b f) (hs : s.Fits c d g) {j : Nat} (hb : 1 ≤ b) (hd : 1 ≤ d)
    (hdouble : (r.flow + s.flow) * 2 ≤ c ^ j) (hroom : c ^ (b + d + j) ≤ room) :
    ∃ a A, toDouble (r.amount + s.amount) = .ok a ∧ Stands a A ∧ Within 1 A (r.amount + s.amount : Int) := by
  have hnonneg : 0 ≤ r.flow + s.flow := add_nonneg hr.flow_nonneg hs.flow_nonneg
  have hproduct : (r.flow + s.flow) * c ^ (b + d) ≤ c ^ (b + d + j) := by
    rw [pow_add c (b + d) j, mul_comm]
    exact mul_le_mul_of_nonneg_left (by linarith) (pow_nonneg (zero_le_two.trans hc) _)
  have hamounts := hr.amounts_le hc hs hb hd
  have hcount : (0 : ℚ) ≤ (r.amount + s.amount : Int) :=
    Int.cast_nonneg (add_nonneg r.amount_nonneg s.amount_nonneg)
  exact exists_toDouble (add_nonneg r.amount_nonneg s.amount_nonneg) (by linarith)

/-- A base over which both amounts flow hardly slower than the rates is no longer than the longest base. -/
theorem Fits.base_le (hc : 2 ≤ c) (hr : r.Fits c b f) (hs : s.Fits c d g) (hb : 1 ≤ b) (hd : 1 ≤ d)
    (hflow : 0 < r.flow + s.flow) (hW : 0 < W)
    (h : r.flow + s.flow ≤ (r.amount + s.amount : Int) / W * slack ^ 5) : W ≤ c ^ (b + d) := by
  have hcount : (0 : ℚ) ≤ (r.amount + s.amount : Int) :=
    Int.cast_nonneg (add_nonneg r.amount_nonneg s.amount_nonneg)
  rw [div_mul_eq_mul_div, le_div_iff₀ hW] at h
  refine le_of_mul_le_mul_left ?_ hflow
  calc (r.flow + s.flow) * W ≤ (r.amount + s.amount : Int) * slack ^ 5 := h
    _ ≤ (r.amount + s.amount : Int) * 2 := mul_le_mul_of_nonneg_left (slack_pow_le_two (by decide)) hcount
    _ ≤ (r.flow + s.flow) * c ^ (b + d) := hr.amounts_le hc hs hb hd

/-- A sum by throughput is over a base hardly longer than the longer of the two. -/
theorem Fits.exists_addThroughput (hc : 2 ≤ c) (hr : r.Fits c b f) (hs : s.Fits c d g) {j : Nat}
    (hb : 1 ≤ b) (hd : 1 ≤ d) (hf : f ≤ j) (hg : g ≤ j) (hsum : 2 * (c ^ f + c ^ g) ≤ c ^ j)
    (hroom : c ^ (b + d + j) ≤ room) (hr0 : r.isZero = false) (hs0 : s.isZero = false) :
    ∃ t, r.addThroughput s = .ok t ∧ t.Fits c (b + d) j ∧ Within 5 t.flow (r.flow + s.flow) := by
  have hc1 : 1 ≤ c := one_le_two.trans hc
  have hflow : 0 < r.flow + s.flow := add_pos (hr.flow_pos hr0) (hs.flow_pos hs0)
  have hdouble : (r.flow + s.flow) * 2 ≤ c ^ j := by
    linarith [hr.flow_le, hs.flow_le]
  have hbound : r.flow + s.flow ≤ room := by
    have := pow_le_room hc1 hroom (Nat.le_add_left j (b + d))
    linarith
  have hone := one_le_amounts hflow
  obtain ⟨a, A, ha, hA, hdrift⟩ := hr.exists_amounts hc hs hb hd hdouble hroom
  obtain ⟨x, y, Z, hx, hy, hZ, hZF⟩ := hr.exists_throughputs hc1 hs (pow_le_room hc1 hroom (by omega))
    (pow_le_room hc1 hroom (by omega)) hbound
  have hZpos := hZF.pos hflow
  have hshort : ((r.amount + s.amount : Int) : ℚ) / (r.flow + s.flow) ≤ room := by
    refine le_trans ?_ (pow_le_room hc1 hroom (Nat.le_add_right (b + d) j))
    rw [div_le_iff₀ hflow]
    linarith [hr.amounts_le hc hs hb hd]
  obtain ⟨W, hW, hfinal⟩ := (base_within hA hdrift hone hZ hZpos hZF).resolve_right fun h =>
    not_limit_le (by decide) hshort h.2
  have hWpos : 0 < W := (div_pos_iff_of_pos_left (one_pos.trans_le hone)).1 (hfinal.pos hflow)
  obtain ⟨t, ht⟩ := exists_make hW hWpos (add_nonneg r.amount_nonneg s.amount_nonneg)
  obtain ⟨hamount, hticks⟩ := of_make ht
  have hvalue : t.ticks.value = W := by
    rw [hticks]
    exact hW.value_eq
  have htflow : t.flow = (r.amount + s.amount : Int) / W := by rw [flow, hamount, hvalue]
  refine ⟨t, ?_, ⟨hticks ▸ ⟨_, hW.size⟩, ?_, ?_, ?_⟩, htflow ▸ hfinal⟩
  · exact Result.bind_eq_ok.2 ⟨x, hx, Result.bind_eq_ok.2 ⟨y, hy, Result.bind_eq_ok.2 ⟨a / (x + y),
      Result.bind_eq_ok.2 ⟨a, ha, Result.bind_eq_ok.2 ⟨x + y, rfl, divideDoubles_of_pos hZ hZpos⟩⟩, ht⟩⟩⟩
  · rintro ⟨z, hz, hinfinite⟩
    obtain rfl := Number.real.inj (hticks.symm.trans hz)
    exact hW.not_isInfinite hinfinite
  · exact hvalue.trans_le (hr.base_le hc hs hb hd hflow hWpos hfinal.2)
  · rw [htflow]
    refine (hfinal.1.trans ?_).trans hdouble
    exact mul_le_mul_of_nonneg_left (slack_pow_le_two (by decide)) hflow.le

theorem Fits.exists_addSame (hr : r.Fits c b f) (hs : s.Fits c d g) {j : Nat} (hsum : c ^ f + c ^ g ≤ c ^ j)
    (hsame : r.ticks.same s.ticks = true) :
    ∃ t, make (r.amount + s.amount) r.ticks = .ok t ∧ t.Fits c b j ∧ t.flow = r.flow + s.flow := by
  have hflow : ((r.amount + s.amount : Int) : ℚ) / r.ticks.value = r.flow + s.flow := by
    rw [Int.cast_add, add_div, flow, flow, Number.value_eq_of_same hr.base hs.base hsame]
  refine ⟨_, make_eq_ok ⟨_, r.ticks, Int.add_nonneg r.amount_nonneg s.amount_nonneg, r.ticks_pos⟩,
    ⟨hr.base, hr.stays, hr.ticks_le, ?_⟩, hflow⟩
  exact hflow.trans_le ((add_le_add hr.flow_le hs.flow_le).trans hsum)

/-- A sum is over a base no longer than both multiplied, and flows no more than two powers above the
larger flow. -/
theorem Fits.exists_add (hc : 2 ≤ c) (hr : r.Fits c b f) (hs : s.Fits c d g) (hb : 1 ≤ b) (hd : 1 ≤ d)
    (hg : g ≤ f) (hroom : c ^ (b + d + (f + 2)) ≤ room) :
    ∃ t, r.add s = .ok t ∧ t.Fits c (b + d) (f + 2) ∧ Within 5 t.flow (r.flow + s.flow) := by
  have hc1 : 1 ≤ c := one_le_two.trans hc
  have hdouble : 2 * (c ^ f + c ^ g) ≤ c ^ (f + 2) :=
    calc 2 * (c ^ f + c ^ g) ≤ c ^ f * (2 * 2) := by linarith [pow_le_pow_right₀ hc1 hg]
      _ ≤ c ^ f * (c * c) := by gcongr
      _ = c ^ (f + 2) := by ring
  have hsum : c ^ f + c ^ g ≤ c ^ (f + 2) := by
    have := add_nonneg (pow_nonneg (zero_le_one.trans hc1) f) (pow_nonneg (zero_le_one.trans hc1) g)
    exact (le_mul_of_one_le_left this one_le_two).trans hdouble
  have hexact {t : Rate} {i : Nat} (ht : t.Fits c i (f + 2)) (hi : i ≤ b + d)
      (hflow : t.flow = r.flow + s.flow) :
      t.Fits c (b + d) (f + 2) ∧ Within 5 t.flow (r.flow + s.flow) :=
    ⟨ht.mono hc1 hi (Nat.le_refl _), hflow ▸ .refl ht.flow_nonneg⟩
  unfold add
  split
  next hzero =>
    refine ⟨r, rfl, hexact (hr.mono hc1 (Nat.le_refl b) (by omega)) (by omega) ?_⟩
    rw [flow_of_isZero hzero, add_zero]
  next hs0 =>
  split
  next hzero =>
    refine ⟨s, rfl, hexact (hs.mono hc1 (Nat.le_refl d) (by omega)) (by omega) ?_⟩
    rw [flow_of_isZero hzero, zero_add]
  next hr0 =>
  split
  next hsame =>
    obtain ⟨t, ht, hfits, hflow⟩ := hr.exists_addSame hs hsum hsame
    exact ⟨t, ht, hexact hfits (by omega) hflow⟩
  next =>
  obtain ⟨bases, hbases⟩ := hr.exists_wholeBases? hs (pow_le_room hc1 hroom (by omega))
    (pow_le_room hc1 hroom (by omega))
  rw [hbases]
  cases bases with
  | none =>
    exact hr.exists_addThroughput hc hs hb hd (by omega) (by omega) hdouble hroom
      (Bool.eq_false_iff.2 hr0) (Bool.eq_false_iff.2 hs0)
  | some bases =>
    obtain ⟨m, n⟩ := bases
    obtain ⟨hm, hn⟩ := wholeBases?_eq_ok hbases
    obtain ⟨t, ht, hfits, hflow⟩ := hr.exists_addWhole hc1 hs hsum hm hn
    exact ⟨t, ht, hexact hfits (Nat.le_refl _) hflow⟩

/-! ## Raises -/

/-- What is found short of a demand is no more than twice of it. -/
theorem Fits.flow_le_of_short (hc : 1 ≤ c) (hr : r.Fits c b f) (hs : s.Fits c d g) (hsome : s.isZero = false)
    (hroom : c ^ (b + f) ≤ room) (hroom' : c ^ (d + g) ≤ room)
    (h : r.isShortOf s defaultEpsilon = .ok true) : r.flow ≤ s.flow * 2 := by
  obtain ⟨x, X, hx, hX, hXr⟩ := hr.exists_throughput hc hroom
  obtain ⟨y, Y, hy, hY, hYs⟩ := hs.exists_throughput hc hroom'
  obtain ⟨x', y', hx', hy', hless⟩ := isShortOf_eq_ok h
  obtain rfl := Except.ok.inj (hx.symm.trans hx')
  obtain rfl := Except.ok.inj (hy.symm.trans hy')
  have hflow := hs.flow_pos hsome
  have hordinary := hs.ordinary (pow_le_room hc hroom' (Nat.le_add_right d g))
  obtain ⟨_, hmeasured⟩ := (hordinary.eq_zero_or hY hYs).resolve_left fun h => hflow.ne' h.2
  have htolerated : Y * (3 / 4) ≤ Y * enough := mul_le_mul_of_nonneg_left three_quarters_le_enough hY.nonneg
  have hregular : Regular (Y * enough) := .inr (by linarith [tiny_pos])
  have hless' : Y * enough ≤ Y := mul_le_of_le_one_right hY.nonneg enough_le_one
  rcases (rounded_mul hY stands_enough).within hregular with ⟨w, hw, hdrift⟩ | ⟨_, hle⟩
  · have hXw : X ≤ w := (WithTop.coe_lt_coe.1 ((lt_iff hX.size hw.size).1 (of_decide_eq_true hless))).le
    calc r.flow ≤ X * slack ^ 2 := hXr.2
      _ ≤ Y * slack ^ 1 * slack ^ 2 := by
        refine mul_le_mul_of_nonneg_right (hXw.trans (hdrift.1.trans ?_)) (slack_pow_pos 2).le
        exact mul_le_mul_of_nonneg_right hless' (slack_pow_pos 1).le
      _ ≤ s.flow * slack ^ 2 * slack ^ 1 * slack ^ 2 := by
        refine mul_le_mul_of_nonneg_right ?_ (slack_pow_pos 2).le
        exact mul_le_mul_of_nonneg_right hYs.1 (slack_pow_pos 1).le
      _ = s.flow * slack ^ 5 := by ring
      _ ≤ s.flow * 2 := mul_le_mul_of_nonneg_left (slack_pow_le_two (by decide)) hflow.le
  · have hfar : limit ≤ s.flow * slack ^ 3 := by
      refine hle.trans ((mul_le_mul_of_nonneg_right (hless'.trans hYs.1) slack_pos.le).trans_eq ?_)
      ring
    exact absurd hfar (not_limit_le (by decide) (hs.flow_le.trans (pow_le_room hc hroom' (Nat.le_add_left g d))))

/-- Less the default tolerance, a quotient that is not small is a value, and hardly larger. -/
theorem exists_less_tolerance {x : Float} {v : ℚ} (hv : Stands x v) (hquarter : 1 ≤ v * 4)
    (hle : v ≤ q * slack ^ 7) (hroom : q ≤ room) :
    ∃ z, Stands (x - defaultEpsilon) z ∧ z ≤ q * slack ^ 8 := by
  have htolerance := tolerance_le
  have hless : Regular (v - tolerance) := .inr (by linarith [tiny_le_eighth, tiny_pos])
  have hscaled : (v - tolerance) * slack ^ 1 ≤ q * slack ^ 8 :=
    calc (v - tolerance) * slack ^ 1 ≤ q * slack ^ 7 * slack ^ 1 := by
          refine mul_le_mul_of_nonneg_right ?_ (slack_pow_pos 1).le
          exact (sub_le_self _ stands_tolerance.nonneg).trans hle
      _ = q * slack ^ 8 := by ring
  rcases (rounded_sub hv stands_tolerance (by linarith)).within hless with ⟨z, hz, hdrift⟩ | ⟨_, hfar⟩
  · exact ⟨z, hz, hdrift.1.trans hscaled⟩
  · rw [← pow_one slack] at hfar
    exact absurd (hfar.trans hscaled) (not_limit_le (by decide) hroom)

/-- A multiplier that meets a share of the demand is raised to at most twice what the demand asks for,
and one more. -/
theorem exists_raisedMultiplier {mult : Int} {needed : Float} {w : ℚ} (hmult : 1 ≤ mult) (hm : (mult : ℚ) ≤ room)
    (hw : Stands needed w) (hdrift : Within 5 w q) (hq : 0 < q) (hq2 : q ≤ 2) (hroom : mult / q ≤ room) :
    ∃ raised, raisedMultiplier mult needed defaultEpsilon = .ok raised ∧ (raised : ℚ) ≤ 2 * (mult / q) + 1 := by
  have hcopies : (1 : ℚ) ≤ mult := by exact_mod_cast hmult
  have hwpos := hdrift.pos hq
  obtain ⟨m, M, hm, hM, hwithin⟩ := exists_toDouble (Int.le_of_lt hmult) hm
  have hhalf : 1 ≤ mult / q * 2 := by
    rw [div_mul_eq_mul_div, one_le_div₀ hq]
    linarith
  have hquotient : Within (1 + 5) (M / w) (mult / q) :=
    hwithin.div hdrift hM.nonneg (zero_le_one.trans hcopies) hwpos hq
  have hregular := hquotient.regular (by decide) (div_nonneg hM.nonneg hwpos.le)
    (.inr (by linarith [tiny_le_eighth]))
  obtain ⟨v, hv, hvdrift⟩ := exists_div_within (l := 7) rfl (by decide) hM hw hwpos hquotient hregular hroom
  have hquarter : 1 ≤ v * 4 := by
    have := hvdrift.2.trans (mul_le_mul_of_nonneg_left (slack_pow_le_two (k := 7) (by decide)) hv.nonneg)
    linarith
  obtain ⟨z, hz, hle⟩ := exists_less_tolerance hv hquarter hvdrift.1 hroom
  obtain ⟨k, hk, hlt⟩ := hz.exists_ceiling
  have hbound : z ≤ 2 * (mult / q) := by
    have := mul_le_mul_of_nonneg_left (slack_pow_le_two (k := 8) (by decide)) (by linarith : (0 : ℚ) ≤ mult / q)
    linarith
  have hgrown : (mult : ℚ) ≤ 2 * (mult / q) := by
    rw [mul_div_assoc', le_div_iff₀ hq]
    nlinarith
  refine ⟨max k (mult + 1), ?_, ?_⟩
  · exact Result.bind_eq_ok.2 ⟨m, hm, Result.bind_eq_ok.2 ⟨m / needed, divideDoubles_of_pos hw hwpos,
      Result.bind_eq_ok.2 ⟨k, hk, rfl⟩⟩⟩
  · push_cast
    exact max_le (by linarith) (by linarith)

end Rate

end Conveyor
