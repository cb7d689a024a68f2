-- SUMMARY: What rates are worth in exact units per tick, and how far arithmetic on them drifts from that.
import Conveyor.Rate
import Conveyor.Proofs.Result
import Conveyor.Proofs.Double.Within
import Mathlib.Tactic.GCongr

/-!
# Exact flow

A rate is worth its amount over its tick base. Copies of a rate multiply what it is worth without
loss, and so do sums over whole bases. All else passes through doubles: it drifts by a few roundings,
or its base leaves the doubles and then the rate is worth nothing.
-/

namespace Conveyor

open Binary64

/-! ## Exact values -/

/-- The exact value of a double; an infinity and a NaN count as nothing. -/
def Binary64.value (x : Float) : ℚ :=
  match fraction? x with
  | some r => r.num / r.den
  | none => 0

/-- The fraction that a double stands for has its value. -/
theorem Binary64.Stands.exists_fraction {x : Float} {q : ℚ} (h : Stands x q) :
    ∃ r, fraction? x = some r ∧ (r.num : ℚ) / r.den = q := by
  have hpow (k : Nat) : ((Nat.pow 2 k : Nat) : ℚ) = 2 ^ k := by
    exact_mod_cast (rfl : Nat.pow 2 k = 2 ^ k)
  unfold fraction?
  rcases h.digits with ⟨s, hu, rfl⟩ | ⟨m, e, hm, hu, rfl, _⟩
  · rw [hu]
    exact ⟨_, rfl, by simp⟩
  · rw [hu]
    cases Decidable.em (0 ≤ e) with
    | inl he =>
      refine ⟨_, if_pos he, ?_⟩
      have hscale : (2 : ℚ) ^ e = 2 ^ e.toNat := by rw [← zpow_natCast, Int.toNat_of_nonneg he]
      rw [hscale, ← hpow]
      simp [Float.Model.UnpackedFloat.Sign.apply]
    | inr he =>
      refine ⟨_, if_neg he, ?_⟩
      have hscale : (2 : ℚ) ^ e = (2 ^ (-e).toNat)⁻¹ := by
        rw [← zpow_natCast, ← zpow_neg, Int.toNat_of_nonneg (by omega), neg_neg]
      rw [hscale, ← hpow, ← div_eq_mul_inv]
      rfl

theorem Binary64.Stands.value_eq {x : Float} {q : ℚ} (h : Stands x q) : value x = q := by
  obtain ⟨r, hr, hvalue⟩ := h.exists_fraction
  unfold value
  rw [hr]
  exact hvalue

theorem Binary64.IsInfinite.value_eq {x : Float} (h : IsInfinite x) : value x = 0 := by
  unfold value fraction?
  rw [h]

theorem Binary64.stands_zero : Stands 0.0 0 := Holds.zero _

theorem Binary64.stands_one : Stands 1.0 1 := by
  have hunpack : (1.0 : Float).toModel.unpack =
      .finite .positive 4503599627370496 (-52) (by decide) := rfl
  have hvalue : (1 : ℚ) = (4503599627370496 : Nat) * 2 ^ (-52 : Int) := by norm_num
  unfold Stands
  rw [hunpack, hvalue]
  exact .finite _ _ _

theorem Binary64.Stands.le_zero_iff {x : Float} {q : ℚ} (h : Stands x q) : x ≤ 0.0 ↔ q ≤ 0 :=
  (le_iff h.size stands_zero.size).trans WithTop.coe_le_coe

theorem Binary64.Stands.beq_zero_iff {x : Float} {q : ℚ} (h : Stands x q) : (x == 0.0) = true ↔ q = 0 :=
  (beq_iff h.size stands_zero.size).trans WithTop.coe_inj

theorem Binary64.IsInfinite.not_le_zero {x : Float} (h : IsInfinite x) : ¬ x ≤ 0.0 := fun hle =>
  not_le.2 (WithTop.coe_lt_top 0) ((le_iff h.size stands_zero.size).1 hle)

theorem Binary64.IsInfinite.beq_zero {x : Float} (h : IsInfinite x) : (x == 0.0) = false :=
  Bool.eq_false_iff.2 fun hzero => WithTop.top_ne_coe ((beq_iff h.size stands_zero.size).1 hzero)

namespace Number

/-- The exact number of ticks, if there is one. -/
def value : Number → ℚ
  | .whole n => n
  | .real x => Binary64.value x

/-- The number is a count of ticks, or stands for an infinity. -/
def IsBase : Number → Prop
  | .whole _ => True
  | .real x => ∃ v, Size x v

variable {a b : Number}

theorem value_eq_of_compareInt {n : Int} {x : Float} (h : compareInt n x = some .eq) :
    Binary64.value x = n := by
  have hcompare : ∃ r, fraction? x = some r ∧ compare (n * r.den) r.num = .eq := by
    unfold compareInt at h
    split at h
    · cases h
    · cases h
    · cases h
    · exact Option.map_eq_some_iff.1 h
  obtain ⟨r, hr, heq⟩ := hcompare
  have hden : (r.den : ℚ) ≠ 0 := by exact_mod_cast r.den_pos.ne'
  unfold Binary64.value
  rw [hr]
  simp only
  rw [div_eq_iff hden, ← compare_eq_iff_eq.1 heq]
  push_cast
  ring

theorem value_eq_of_same (ha : a.IsBase) (hb : b.IsBase) (h : a.same b = true) :
    a.value = b.value := by
  have horder : a.order b = some .eq := of_decide_eq_true h
  cases a with
  | whole m =>
    cases b with
    | whole n =>
      have hmn : compare m n = .eq := Option.some.inj horder
      rw [compare_eq_iff_eq.1 hmn]
    | real y => exact (value_eq_of_compareInt horder).symm
  | real x =>
    cases b with
    | whole n =>
      change (compareInt n x).map Ordering.swap = some .eq at horder
      obtain ⟨order, hcompare, hswap⟩ := Option.map_eq_some_iff.1 horder
      obtain rfl : order = .eq := by cases order <;> simp_all
      exact value_eq_of_compareInt hcompare
    | real y =>
      obtain ⟨v, hx⟩ := ha
      obtain ⟨w, hy⟩ := hb
      have hbeq : (x == y) = true := by
        unfold order at horder
        grind
      have hvw := (beq_iff hx hy).1 hbeq
      subst hvw
      cases v with
      | top => exact (IsInfinite.value_eq hx).trans (IsInfinite.value_eq hy).symm
      | coe q => exact (Stands.value_eq hx).trans (Stands.value_eq hy).symm

theorem value_eq_of_whole? {n : Int} (h : a.whole? = some n) : a.value = n := by
  cases a with
  | whole m =>
    obtain rfl := Option.some.inj h
    rfl
  | real x =>
    obtain ⟨r, hr, hn⟩ := Option.bind_eq_some_iff.1 h
    have hvalue : Binary64.value x = r.num / r.den := by
      unfold Binary64.value
      rw [hr]
    have hden : (r.den : ℚ) ≠ 0 := by exact_mod_cast r.den_pos.ne'
    change Binary64.value x = n
    rw [hvalue, div_eq_iff hden, Fraction.whole?_eq_some hn]
    push_cast
    ring

theorem value_eq_of_integer? {n : Int} (h : a.integer? = .ok (some n)) : a.value = n := by
  obtain ⟨_, _, h⟩ := Result.bind_eq_ok.1 h
  exact value_eq_of_whole? (Result.pure_eq_ok.1 h)

end Number

/-! ## Flow -/

namespace Rate

/-- Units per tick, exactly. Nothing flows over a base that lies beyond all doubles. -/
def flow (r : Rate) : ℚ := r.amount / r.ticks.value

/-- The rate is over a base that is a number, and what flows is enough to be measured. -/
structure Ordinary (r : Rate) : Prop where
  base : r.ticks.IsBase
  measured : r.flow = 0 ∨ 4 * tiny ≤ r.flow

variable {r s t : Rate} {x e : Float}

theorem of_make {a : Int} {b : Number} (h : make a b = .ok r) : r.amount = a ∧ r.ticks = b := by
  unfold make at h
  split at h
  · split at h
    · obtain rfl := Except.ok.inj h
      exact ⟨rfl, rfl⟩
    · cases h
  · cases h

@[simp] theorem flow_zero : zero.flow = 0 := by
  simp [flow, zero]

theorem ordinary_zero : zero.Ordinary := ⟨trivial, .inl flow_zero⟩

theorem flow_of_isZero (h : r.isZero = true) : r.flow = 0 := by
  have hamount : r.amount = 0 := of_decide_eq_true h
  rw [flow, hamount, Int.cast_zero, zero_div]

theorem amount_pos (h : r.isZero = false) : (1 : ℚ) ≤ r.amount := by
  have hne : r.amount ≠ 0 := of_decide_eq_false h
  have hnonneg := r.amount_nonneg
  exact_mod_cast (by omega : 1 ≤ r.amount)

theorem whole_pos {n : Int} (hticks : r.ticks = .whole n) : 0 < n := by
  have hpos := r.ticks_pos
  rw [hticks] at hpos
  exact hpos

theorem flow_of_whole {n : Int} (hticks : r.ticks = .whole n) : r.flow = r.amount / n := by
  unfold flow
  rw [hticks]
  rfl

/-- A base below the limit of the doubles lets enough through. -/
theorem quotient_measured (r : Rate) {τ : ℚ} (hτ : 0 < τ) (hlimit : τ ≤ limit) :
    (r.amount / τ : ℚ) = 0 ∨ 4 * tiny ≤ r.amount / τ := by
  cases hr : r.isZero with
  | true =>
    have hamount : r.amount = 0 := of_decide_eq_true hr
    rw [hamount, Int.cast_zero, zero_div]
    exact .inl rfl
  | false =>
    refine .inr ?_
    have htiny := tiny_pos
    rw [le_div_iff₀ hτ]
    calc 4 * tiny * τ ≤ 4 * tiny * limit := by gcongr
      _ = 1 := by rw [← tiny_mul_limit]; ring
      _ ≤ r.amount := amount_pos hr

/-- A tick base that is a double is a value above zero, or nothing flows over it. -/
theorem flow_of_real (hticks : r.ticks = .real x) (hbase : r.ticks.IsBase) :
    (∃ τ, Stands x τ ∧ 0 < τ ∧ r.flow = r.amount / τ) ∨ (IsInfinite x ∧ r.flow = 0) := by
  have hpos := r.ticks_pos
  rw [hticks] at hbase hpos
  obtain ⟨v, hv⟩ := hbase
  unfold flow
  rw [hticks]
  cases v with
  | top => exact .inr ⟨hv, (congrArg _ (IsInfinite.value_eq hv)).trans (div_zero _)⟩
  | coe τ =>
    exact .inl ⟨τ, hv, not_le.1 fun h => hpos ((Stands.le_zero_iff hv).2 h),
      congrArg _ (Stands.value_eq hv)⟩

/-- What flows over a base that is a double is nothing or can be measured. -/
theorem ordinary_of_real (hticks : r.ticks = .real x) (hbase : r.ticks.IsBase) : r.Ordinary := by
  refine ⟨hbase, ?_⟩
  rcases flow_of_real hticks hbase with ⟨τ, hτ, hpos, hflow⟩ | ⟨_, hflow⟩
  · rw [hflow]
    exact quotient_measured r hpos hτ.lt_limit.le
  · exact .inl hflow

/-! ## Throughput -/

theorem toDouble_within {n : Int} (hn : 0 ≤ n) (h : toDouble n = .ok x) :
    ∃ w, Stands x w ∧ Within 1 w n := by
  unfold toDouble at h
  split at h
  · obtain rfl := Except.ok.inj h
    exact ofInt?_within hn (by assumption)
  · cases h

theorem Ordinary.regular (hr : r.Ordinary) : Regular r.flow :=
  hr.measured.imp_right fun h => le_trans (by linarith [tiny_pos]) h

/-- Over a whole base the throughput is rounded once. -/
theorem throughput_near {n : Int} (hticks : r.ticks = .whole n) (h : r.throughput = .ok x) :
    ∃ w, Stands x w ∧ Near w r.flow := by
  have hpos := whole_pos hticks
  unfold throughput flow at *
  rw [hticks] at h ⊢
  change divideInts r.amount n = .ok x at h
  unfold divideInts at h
  split at h
  · cases h
  · split at h
    · obtain rfl := Except.ok.inj h
      exact quotient?_near r.amount_nonneg hpos (by assumption)
    · cases h

theorem divideDoubles_eq_ok {y z : Float} (h : divideDoubles x y = .ok z) :
    (x / y = z) ∧ (y == 0.0) = false := by
  unfold divideDoubles at h
  split at h
  · cases h
  next hzero => exact ⟨Except.ok.inj h, Bool.eq_false_iff.2 hzero⟩

/-- The quotient of an amount by a tick base that is a double drifts by one rounding more than the two
do, unless it is beyond all doubles. -/
theorem div_within {a τ q : ℚ} {y : Float} {k l : Nat} (hl : l = 1 + k) (hx : Stands x a)
    (hy : Stands y τ) (hτ : 0 < τ) (ha : Within k (a / τ) q) (hq : Regular (a / τ)) :
    (∃ w, Stands (x / y) w ∧ Within l w q) ∨ (IsInfinite (x / y) ∧ limit ≤ q * slack ^ l) := by
  subst hl
  rcases (rounded_div hx hy hτ).within hq with ⟨w, hw, hwithin⟩ | ⟨hinfinite, hle⟩
  · exact .inl ⟨w, hw, hwithin.trans ha⟩
  · refine .inr ⟨hinfinite, hle.trans ?_⟩
    rw [pow_add, pow_one, mul_comm slack, ← mul_assoc]
    exact mul_le_mul_of_nonneg_right ha.1 slack_pos.le

/-- The throughput of a rate drifts by two roundings, or is beyond all doubles. -/
theorem throughput_within (hr : r.Ordinary) (h : r.throughput = .ok x) :
    (∃ w, Stands x w ∧ Within 2 w r.flow) ∨ (IsInfinite x ∧ limit ≤ r.flow * slack ^ 2) := by
  cases hticks : r.ticks with
  | whole n =>
    obtain ⟨w, hw, hnear⟩ := throughput_near hticks h
    have hflow := hr.regular.elim (fun h => h.ge) fun h => tiny_pos.le.trans h
    exact .inl ⟨w, hw, (hnear.within hr.regular).mono one_le_two hw.nonneg hflow⟩
  | real t =>
    unfold throughput at h
    rw [hticks] at h
    obtain ⟨y, hy, h⟩ := Result.bind_eq_ok.1 h
    obtain ⟨_, ht, h⟩ := Result.bind_eq_ok.1 h
    obtain rfl := Except.ok.inj ht
    obtain ⟨a, ha, hwithin⟩ := toDouble_within r.amount_nonneg hy
    obtain ⟨rfl, -⟩ := divideDoubles_eq_ok h
    rcases flow_of_real hticks hr.base with ⟨τ, hτ, hpos, hflow⟩ | ⟨hinfinite, hflow⟩
    · have hquotient : Within 1 (a / τ) r.flow := by
        rw [hflow]
        exact hwithin.div_const hpos.le
      exact div_within rfl ha hτ hpos hquotient
        (hquotient.regular (by decide) (div_nonneg ha.nonneg hpos.le) hr.measured)
    · rw [hflow]
      exact .inl ⟨0, ha.div_isInfinite hinfinite, .refl (le_refl 0)⟩

/-! ## Copies and efficiencies -/

/-- The tick base lies beyond all doubles, so nothing flows. -/
def Stops (r : Rate) : Prop := ∃ x, r.ticks = .real x ∧ IsInfinite x

instance (r : Rate) : Decidable r.Stops :=
  match h : r.ticks with
  | .whole _ => isFalse fun ⟨_, hx, _⟩ => by rw [h] at hx; cases hx
  | .real x => decidable_of_iff (IsInfinite x) ⟨fun hx => ⟨x, h, hx⟩,
      fun ⟨_, hy, hinfinite⟩ => Number.real.inj (h.symm.trans hy) ▸ hinfinite⟩

theorem Stops.flow_eq (h : r.Stops) : r.flow = 0 := by
  obtain ⟨x, hx, hinfinite⟩ := h
  unfold flow
  rw [hx]
  exact (congrArg _ hinfinite.value_eq).trans (div_zero _)

/-- Some copies of a rate are a rate. -/
theorem times_of_pos {k : Int} (hk : 1 ≤ k) :
    r.times k = .ok ⟨r.amount * k, r.ticks, Int.mul_nonneg r.amount_nonneg (Int.le_of_lt hk), r.ticks_pos⟩ := by
  rw [times, if_neg (Int.ne_of_gt hk)]
  exact make_eq_ok ⟨_, _, _, r.ticks_pos⟩

theorem flow_times {k : Int} (h : r.times k = .ok s) : s.flow = r.flow * k := by
  unfold times at h
  split at h
  next hk =>
    obtain rfl := Except.ok.inj h
    rw [hk, flow_zero, Int.cast_zero, mul_zero]
  · obtain ⟨hamount, hticks⟩ := of_make h
    unfold flow
    rw [hamount, hticks]
    push_cast
    ring

theorem Ordinary.times {k : Int} (hr : r.Ordinary) (h : r.times k = .ok s) : s.Ordinary := by
  have hflow := flow_times h
  unfold Rate.times at h
  split at h
  · obtain rfl := Except.ok.inj h
    exact ordinary_zero
  next hk =>
    obtain ⟨hamount, hticks⟩ := of_make h
    refine ⟨hticks ▸ hr.base, ?_⟩
    rw [hflow]
    refine hr.measured.imp (fun hzero => by rw [hzero, zero_mul]) fun hpos => ?_
    have hne : r.amount ≠ 0 := by
      intro hzero
      have hnone : r.flow = 0 := by rw [Rate.flow, hzero, Int.cast_zero, zero_div]
      linarith [tiny_pos]
    have hcopies : 0 ≤ k := by
      have hproduct := s.amount_nonneg
      rw [hamount] at hproduct
      exact nonneg_of_mul_nonneg_right hproduct (lt_of_le_of_ne r.amount_nonneg hne.symm)
    have hone : (1 : ℚ) ≤ k := by exact_mod_cast (by omega : 1 ≤ k)
    have hflow := (by linarith [tiny_pos] : (0 : ℚ) ≤ r.flow)
    exact hpos.trans (le_mul_of_one_le_right hflow hone)

theorem Stops.times {k : Int} (hr : r.Stops) (hk : k ≠ 0) (h : r.times k = .ok s) : s.Stops := by
  obtain ⟨x, hx, hinfinite⟩ := hr
  rw [Rate.times, if_neg hk] at h
  obtain ⟨_, hticks⟩ := of_make h
  exact ⟨x, hticks.trans hx, hinfinite⟩

theorem stretch_of_nothing (h : e ≤ 0.0 ∨ r.isZero = true) : r.stretch e = .ok zero := by
  refine if_pos (Bool.or_eq_true_iff.2 (h.imp_left ?_))
  exact decide_eq_true

theorem stretch_of_some (h : ¬ (e ≤ 0.0 ∨ r.isZero = true)) :
    r.stretch e = r.ticks.div (.real e) >>= fun ticks => make r.amount (.real ticks) := by
  refine if_neg fun hnone => h ((Bool.or_eq_true_iff.1 hnone).imp_left ?_)
  exact of_decide_eq_true

/-- Nothing is left of nothing, nor at no efficiency. -/
theorem flow_mul_eq_zero {η : ℚ} (he : Stands e η) (h : e ≤ 0.0 ∨ r.isZero = true) : r.flow * η = 0 := by
  rcases h with he0 | hr0
  · rw [le_antisymm (he.le_zero_iff.1 he0) he.nonneg, mul_zero]
  · rw [flow_of_isZero hr0, zero_mul]

theorem pos_of_some {η : ℚ} (he : Stands e η) (h : ¬ (e ≤ 0.0 ∨ r.isZero = true)) : 0 < η :=
  lt_of_not_ge fun hle => h (.inl (he.le_zero_iff.2 hle))

/-- Something of a rate is the same amount over a quotient of doubles. -/
theorem of_stretch {n : Int} (hticks : r.ticks = .whole n) (hsome : ¬ (e ≤ 0.0 ∨ r.isZero = true))
    (h : r.stretch e = .ok s) :
    ∃ x, toDouble n = .ok x ∧ s.amount = r.amount ∧ s.ticks = .real (x / e) := by
  rw [stretch_of_some hsome, hticks] at h
  obtain ⟨y, hdiv, h⟩ := Result.bind_eq_ok.1 h
  obtain ⟨x, hx, hdiv⟩ := Result.bind_eq_ok.1 hdiv
  obtain ⟨_, hd, hdiv⟩ := Result.bind_eq_ok.1 hdiv
  obtain rfl := Except.ok.inj hd
  obtain ⟨rfl, -⟩ := divideDoubles_eq_ok hdiv
  exact ⟨x, hx, of_make h⟩

/-- A base over an efficiency drifts by one rounding more, unless it is beyond all doubles. -/
theorem base_div_within {x : Float} {τ b η : ℚ} (hx : Stands x τ) (hwithin : Within 1 τ b) (hb : 1 ≤ b)
    (he : Stands e η) (hη : 0 < η) (hone : η ≤ 1) :
    (∃ w, Stands (x / e) w ∧ 0 < w ∧ Within 2 w (b / η)) ∨
      (IsInfinite (x / e) ∧ limit ≤ b / η * slack ^ 2) := by
  have hquotient : Within 1 (τ / η) (b / η) := hwithin.div_const hη.le
  have hlarge : 1 ≤ b / η := (one_le_div₀ hη).2 (hone.trans hb)
  have hregular : Regular (τ / η) :=
    hquotient.regular (by decide) (div_nonneg hx.nonneg hη.le) (.inr (tiny_le.trans hlarge))
  refine (div_within (l := 2) rfl hx he hη hquotient hregular).imp_left ?_
  rintro ⟨w, hw, hdrift⟩
  exact ⟨w, hw, hdrift.pos (one_pos.trans_le hlarge), hdrift⟩

/-- An efficiency that is all but nothing takes a base beyond all doubles. -/
theorem not_within_of_le_tiny {x : Float} {w b η : ℚ} (hx : Stands x w) (hw : 0 < w) (hb : 1 ≤ b) (hη : 0 < η)
    (hsmall : η ≤ 2 * tiny) : ¬ Within 2 w (b / η) := by
  intro hdrift
  have hlong : 2 * limit ≤ b / η := by
    rw [le_div_iff₀ hη]
    have hlimit : 0 ≤ limit := (pow_pos two_pos _).le
    nlinarith [tiny_mul_limit]
  have hshort : b / η < 2 * limit := by
    calc b / η ≤ w * slack ^ 2 := hdrift.2
      _ ≤ w * 2 := mul_le_mul_of_nonneg_left (slack_pow_le_two (by decide)) hw.le
      _ < 2 * limit := by linarith [hx.lt_limit]
  exact not_le.2 hshort hlong

/-- The same amount over a base that drifts is a flow that drifts. -/
theorem flow_within {n : Int} {w η : ℚ} (hticks : r.ticks = .whole n) (hη : 0 < η) (hw : 0 < w)
    (hamount : s.amount = r.amount) (hvalue : s.ticks.value = w) (hdrift : Within 2 w (n / η)) :
    Within 2 s.flow (r.flow * η) := by
  have hexact : r.flow * η = r.amount / (n / η) := by
    rw [flow_of_whole hticks, div_div_eq_mul_div, div_mul_eq_mul_div]
  have hn : (0 : ℚ) < n := Int.cast_pos.2 (whole_pos hticks)
  rw [flow, hamount, hvalue, hexact]
  exact hdrift.const_div (Int.cast_nonneg r.amount_nonneg) hw (div_pos hn hη)

/-- A rate at an efficiency drifts by two roundings, unless the longer base leaves the doubles. It does
at an efficiency that is all but nothing. -/
theorem stretch_within {n : Int} {η : ℚ} (hticks : r.ticks = .whole n) (he : Stands e η)
    (hone : η ≤ 1) (h : r.stretch e = .ok s) :
    s.Ordinary ∧ (η ≤ 2 * tiny → s.flow = 0) ∧ (Within 2 s.flow (r.flow * η) ∨ s.Stops) := by
  cases Decidable.em (e ≤ 0.0 ∨ r.isZero = true) with
  | inl hnone =>
    obtain rfl := Except.ok.inj ((stretch_of_nothing hnone).symm.trans h)
    rw [flow_mul_eq_zero he hnone, flow_zero]
    exact ⟨ordinary_zero, fun _ => rfl, .inl (.refl (le_refl 0))⟩
  | inr hsome =>
    have hη := pos_of_some he hsome
    have hn := whole_pos hticks
    have hcount : (1 : ℚ) ≤ n := by exact_mod_cast hn
    obtain ⟨x, hx, hamount, hbase⟩ := of_stretch hticks hsome h
    obtain ⟨τ, hτ, hwithin⟩ := toDouble_within hn.le hx
    rcases base_div_within hτ hwithin hcount he hη hone with ⟨w, hw, hpos, hdrift⟩ | ⟨hinfinite, _⟩
    · have hvalue : s.ticks.value = w := by
        rw [hbase]
        exact hw.value_eq
      refine ⟨ordinary_of_real hbase (hbase ▸ ⟨_, hw.size⟩), fun hsmall => ?_, .inl ?_⟩
      · exact absurd hdrift (not_within_of_le_tiny hw hpos hcount hη hsmall)
      · exact flow_within hticks hη hpos hamount hvalue hdrift
    · have hstops : s.Stops := ⟨_, hbase, hinfinite⟩
      exact ⟨ordinary_of_real hbase (hbase ▸ ⟨_, hinfinite.size⟩), fun _ => hstops.flow_eq, .inr hstops⟩

theorem flow_of_stretch_nothing (he : e ≤ 0.0) (h : r.stretch e = .ok s) : s.flow = 0 := by
  obtain rfl := Except.ok.inj ((stretch_of_nothing (.inl he)).symm.trans h)
  exact flow_zero

/-- Only a period that has a double is stretched. -/
theorem exists_toDouble_of_stretch {n : Int} (hticks : r.ticks = .whole n) (hr : r.isZero = false)
    (he : ¬ e ≤ 0.0) (h : r.stretch e = .ok s) : ∃ x, toDouble n = .ok x :=
  (of_stretch hticks (not_or.2 ⟨he, Bool.eq_false_iff.1 hr⟩) h).imp fun _ hx => hx.1

/-! ## Sums -/

theorem Ordinary.flow_nonneg (hr : r.Ordinary) : 0 ≤ r.flow :=
  hr.measured.elim (fun h => h.ge) fun h => (mul_pos four_pos tiny_pos).le.trans h

theorem Ordinary.measured_add (hr : r.Ordinary) (hs : s.Ordinary) :
    r.flow + s.flow = 0 ∨ 4 * tiny ≤ r.flow + s.flow := by
  have hr0 := hr.flow_nonneg
  have hs0 := hs.flow_nonneg
  rcases hr.measured with hrz | hrm
  · rw [hrz, zero_add]
    exact hs.measured
  · exact .inr (by linarith)

theorem integer?_pos {n : Int} (hbase : r.ticks.IsBase) (h : r.ticks.integer? = .ok (some n)) :
    0 < n := by
  have hvalue := Number.value_eq_of_integer? h
  cases hticks : r.ticks with
  | whole m =>
    have hpos := r.ticks_pos
    rw [hticks] at hvalue hpos
    have hmn : m = n := Int.cast_injective hvalue
    exact hmn ▸ hpos
  | real x =>
    rcases flow_of_real hticks hbase with ⟨τ, hτ, hpos, _⟩ | ⟨hinfinite, _⟩
    · rw [hticks] at hvalue
      have hn : (n : ℚ) = τ := hvalue.symm.trans hτ.value_eq
      rw [← hn] at hpos
      exact_mod_cast hpos
    · rw [hticks] at h
      obtain ⟨_, _, h⟩ := Result.bind_eq_ok.1 h
      have hwhole : whole? x = some n := Result.pure_eq_ok.1 h
      unfold whole? fraction? at hwhole
      rw [hinfinite] at hwhole
      cases hwhole

theorem wholeBases?_eq_ok {m n : Int} (h : r.wholeBases? s = .ok (some (m, n))) :
    r.ticks.integer? = .ok (some m) ∧ s.ticks.integer? = .ok (some n) := by
  obtain ⟨first, hfirst, h⟩ := Result.bind_eq_ok.1 h
  cases first with
  | none => cases Result.pure_eq_ok.1 h
  | some m' =>
    obtain ⟨second, hsecond, h⟩ := Result.bind_eq_ok.1 h
    obtain ⟨n', rfl, hpair⟩ := Option.map_eq_some_iff.1 (Result.pure_eq_ok.1 h)
    obtain ⟨rfl, rfl⟩ := Prod.mk.inj hpair
    exact ⟨hfirst, hsecond⟩

/-- Over whole bases nothing is lost. -/
theorem flow_addWhole {m n : Int} (hm : 0 < m) (hn : 0 < n) (hr : r.ticks.value = m)
    (hs : s.ticks.value = n) (h : r.addWhole s m n = .ok t) :
    t.ticks = .whole (Int.lcm m n) ∧ t.flow = r.flow + s.flow := by
  obtain ⟨hamount, hticks⟩ := of_make h
  refine ⟨hticks, ?_⟩
  have hm0 : (m : ℚ) ≠ 0 := by exact_mod_cast hm.ne'
  have hn0 : (n : ℚ) ≠ 0 := by exact_mod_cast hn.ne'
  have hbase : ((Int.lcm m n : Int) : ℚ) ≠ 0 := by
    exact_mod_cast (Int.lcm_pos hm.ne' hn.ne').ne'
  have hvalue : t.ticks.value = (Int.lcm m n : Int) := by
    rw [hticks]
    rfl
  unfold flow
  rw [hvalue, hamount, hr, hs, Int.cast_add, Int.cast_mul, Int.cast_mul,
    Int.cast_div (Int.dvd_lcm_left m n) hm0, Int.cast_div (Int.dvd_lcm_right m n) hn0]
  field_simp

/-- Throughputs that are not both finite have no sum to divide by. -/
theorem infinite_of_add {x y : Float} {p q : ℚ} {k : Nat}
    (hx : (∃ w, Stands x w ∧ Within k w p) ∨ IsInfinite x)
    (hy : (∃ w, Stands y w ∧ Within k w q) ∨ IsInfinite y) :
    (∃ v w, Stands x v ∧ Stands y w ∧ Within k v p ∧ Within k w q) ∨ IsInfinite (x + y) := by
  rcases hx with ⟨v, hv, hp⟩ | hx
  · rcases hy with ⟨w, hw, hq⟩ | hy
    · exact .inl ⟨v, w, hv, hw, hp, hq⟩
    · exact .inr (hv.add_isInfinite hy)
  · rcases hy with ⟨w, hw, _⟩ | hy
    · exact .inr (hx.add_stands hw)
    · exact .inr (hx.add hy)

/-- No tick base is a quotient by an infinity. -/
theorem not_isInfinite_of_make {a : Float} {p : ℚ} {n : Int} (ha : Stands a p) (hx : IsInfinite x) :
    make n (.real (a / x)) ≠ .ok t := by
  intro h
  obtain ⟨_, hticks⟩ := of_make h
  have hpos := t.ticks_pos
  rw [hticks] at hpos
  exact hpos ((ha.div_isInfinite hx).le_zero_iff.2 (le_refl _))

/-- The base over which an amount gives a throughput is a quotient of the two. -/
theorem base_within {a z : Float} {A Z N F : ℚ} (hA : Stands a A) (hN : Within 1 A N)
    (hone : 1 ≤ N) (hZ : Stands z Z) (hpos : 0 < Z) (hF : Within 3 Z F) :
    (∃ W, Stands (a / z) W ∧ Within 5 (N / W) F) ∨
      (IsInfinite (a / z) ∧ limit ≤ N / F * slack ^ 5) := by
  have hNpos := one_pos.trans_le hone
  have hFpos : 0 < F := hF.symm.pos hpos
  have hquotient : Within (1 + 3) (A / Z) (N / F) := hN.div hF hA.nonneg hNpos.le hpos hFpos
  have hlarge : tiny ≤ A / Z := by
    have hhalf : 1 ≤ A * 2 := by
      calc 1 ≤ N := hone
        _ ≤ A * slack ^ 1 := hN.2
        _ ≤ A * 2 := mul_le_mul_of_nonneg_left (slack_pow_le_two (by decide)) hA.nonneg
    rw [le_div_iff₀ hpos]
    calc tiny * Z ≤ tiny * limit := mul_le_mul_of_nonneg_left hZ.lt_limit.le tiny_pos.le
      _ ≤ A := by linarith [tiny_mul_limit]
  rcases div_within (l := 5) rfl hA hZ hpos hquotient (.inr hlarge) with
    ⟨W, hW, hdrift⟩ | hbeyond
  · have hratio := div_pos hNpos hFpos
    have hback := hdrift.const_div hNpos.le (hdrift.pos hratio) hratio
    rw [div_div_cancel₀ hNpos.ne'] at hback
    exact .inl ⟨W, hW, hback⟩
  · exact .inr hbeyond

theorem one_le_amounts (h : 0 < r.flow + s.flow) : (1 : ℚ) ≤ (r.amount + s.amount : Int) := by
  have hr := r.amount_nonneg
  have hs := s.amount_nonneg
  cases Decidable.em (r.amount + s.amount = 0) with
  | inl hzero =>
    obtain ⟨hr0, hs0⟩ : r.amount = 0 ∧ s.amount = 0 := by omega
    rw [flow, flow, hr0, hs0, Int.cast_zero, zero_div, zero_div, add_zero] at h
    exact absurd h (lt_irrefl 0)
  | inr hne => exact_mod_cast (by omega : 1 ≤ r.amount + s.amount)

/-- A throughput that can be divided by is above zero. -/
theorem pos_of_beq_zero {q : ℚ} (hx : Stands x q) (h : (x == 0.0) = false) : 0 < q := by
  refine lt_of_le_of_ne hx.nonneg fun hzero => ?_
  cases h.symm.trans (hx.beq_zero_iff.2 hzero.symm)

/-- The throughputs of two rates, added. -/
theorem sum_within {x y : Float} (hr : r.Ordinary) (hs : s.Ordinary) (hx : r.throughput = .ok x)
    (hy : s.throughput = .ok y) :
    (∃ Z, Stands (x + y) Z ∧ Within 3 Z (r.flow + s.flow)) ∨ IsInfinite (x + y) := by
  rcases infinite_of_add ((throughput_within hr hx).imp_right And.left)
    ((throughput_within hs hy).imp_right And.left) with ⟨X, Y, hX, hY, hXr, hYs⟩ | hinfinite
  · have hsum : Within 2 (X + Y) (r.flow + s.flow) := hXr.add hYs
    have hregular : Regular (X + Y) :=
      hsum.regular (by decide) (add_nonneg hX.nonneg hY.nonneg) (hr.measured_add hs)
    rcases (rounded_add hX hY).within hregular with ⟨Z, hZ, hdrift⟩ | ⟨hinfinite, _⟩
    · have htotal : Within (1 + 2) Z (r.flow + s.flow) := hdrift.trans hsum
      exact .inl ⟨Z, hZ, htotal⟩
    · exact .inr hinfinite
  · exact .inr hinfinite

theorem addThroughput_within (hr : r.Ordinary) (hs : s.Ordinary) (h : r.addThroughput s = .ok t) :
    t.Ordinary ∧ (Within 5 t.flow (r.flow + s.flow) ∨ t.Stops) := by
  obtain ⟨x, hx, h⟩ := Result.bind_eq_ok.1 h
  obtain ⟨y, hy, h⟩ := Result.bind_eq_ok.1 h
  obtain ⟨_, hdiv, hmake⟩ := Result.bind_eq_ok.1 h
  obtain ⟨a, ha, hdiv⟩ := Result.bind_eq_ok.1 hdiv
  obtain ⟨_, hz, hdiv⟩ := Result.bind_eq_ok.1 hdiv
  obtain rfl := Except.ok.inj hz
  obtain ⟨rfl, hnone⟩ := divideDoubles_eq_ok hdiv
  obtain ⟨hamount, hbase⟩ := of_make hmake
  obtain ⟨A, hA, hdrift⟩ := toDouble_within (add_nonneg r.amount_nonneg s.amount_nonneg) ha
  rcases sum_within hr hs hx hy with ⟨Z, hZ, hsum⟩ | hinfinite
  swap
  · exact absurd hmake (not_isInfinite_of_make hA hinfinite)
  have hpos := pos_of_beq_zero hZ hnone
  rcases base_within hA hdrift (one_le_amounts (hsum.symm.pos hpos)) hZ hpos hsum with
    ⟨W, hW, hflow⟩ | ⟨hinfinite, _⟩
  · have hvalue : t.flow = (r.amount + s.amount : Int) / W := by
      unfold flow
      rw [hamount, hbase]
      exact congrArg _ hW.value_eq
    rw [← hvalue] at hflow
    exact ⟨ordinary_of_real hbase (hbase ▸ ⟨_, hW.size⟩), .inl hflow⟩
  · exact ⟨ordinary_of_real hbase (hbase ▸ ⟨_, hinfinite.size⟩), .inr ⟨_, hbase, hinfinite⟩⟩

/-- A sum drifts by five roundings, unless its base leaves the doubles. -/
theorem add_within (hr : r.Ordinary) (hs : s.Ordinary) (h : r.add s = .ok t) :
    t.Ordinary ∧ (Within 5 t.flow (r.flow + s.flow) ∨ t.Stops) := by
  have hexact {t : Rate} (ht : t.Ordinary) (hflow : t.flow = r.flow + s.flow) :
      t.Ordinary ∧ (Within 5 t.flow (r.flow + s.flow) ∨ t.Stops) :=
    ⟨ht, .inl (hflow ▸ .refl ht.flow_nonneg)⟩
  unfold add at h
  split at h
  next hzero =>
    obtain rfl := Except.ok.inj h
    exact hexact hr (by rw [flow_of_isZero hzero, add_zero])
  split at h
  next hzero =>
    obtain rfl := Except.ok.inj h
    exact hexact hs (by rw [flow_of_isZero hzero, zero_add])
  split at h
  next hsame =>
    obtain ⟨hamount, hticks⟩ := of_make h
    have hvalue := Number.value_eq_of_same hr.base hs.base hsame
    have hflow : t.flow = r.flow + s.flow := by
      unfold flow
      rw [hamount, hticks, ← hvalue]
      push_cast
      ring
    exact hexact ⟨hticks ▸ hr.base, hflow ▸ hr.measured_add hs⟩ hflow
  obtain ⟨bases, hbases, h⟩ := Result.bind_eq_ok.1 h
  cases bases with
  | none => exact addThroughput_within hr hs h
  | some bases =>
    obtain ⟨m, n⟩ := bases
    obtain ⟨hm, hn⟩ := wholeBases?_eq_ok hbases
    obtain ⟨hticks, hflow⟩ := flow_addWhole (integer?_pos hr.base hm) (integer?_pos hs.base hn)
      (Number.value_eq_of_integer? hm) (Number.value_eq_of_integer? hn) h
    refine hexact ⟨?_, hflow ▸ hr.measured_add hs⟩ hflow
    rw [hticks]
    trivial

end Rate

end Conveyor
