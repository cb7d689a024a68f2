-- SUMMARY: Sums, differences, products and quotients of doubles lie next to the exact ones, and compare as values.
import Conveyor.Proofs.Double.Packing
import Mathlib.Algebra.Order.AbsoluteValue.Basic

/-!
# Arithmetic on doubles

The values of doubles are fractions. An operation on doubles that are not negative gives a double as
near to the exact result as rounding allows, or an infinity if no finite double is near. Comparing
doubles compares their values.
-/

open Float.Model (Format UnpackedFloat totalExponent)
open Float.Model.UnpackedFloat

namespace Conveyor.Binary64

/-! ## Values -/

/-- The double is finite, not negative, and stands for `q`. -/
def Stands (x : Float) (q : ℚ) : Prop := Holds x.toModel.unpack q

/-- The double stands for the infinity above all values. -/
def IsInfinite (x : Float) : Prop := x.toModel.unpack = .infinity .positive

instance (x : Float) : Decidable (IsInfinite x) :=
  match h : x.toModel.unpack with
  | .infinity .positive => isTrue h
  | .infinity .negative => isFalse fun hx => by rw [IsInfinite, h] at hx; cases hx
  | .zero _ => isFalse fun hx => by rw [IsInfinite, h] at hx; cases hx
  | .finite _ _ _ _ => isFalse fun hx => by rw [IsInfinite, h] at hx; cases hx
  | .notANumber => isFalse fun hx => by rw [IsInfinite, h] at hx; cases hx

theorem Holds.nonneg {u : UnpackedFloat} {q : ℚ} (h : Holds u q) : 0 ≤ q := by
  cases h with
  | zero s => exact le_refl 0
  | finite m e h => positivity

theorem Holds.unique {u : UnpackedFloat} {p q : ℚ} (h : Holds u p) (h' : Holds u q) : p = q := by
  cases h <;> cases h' <;> rfl

namespace Stands

variable {x y : Float} {p q : ℚ}

theorem nonneg (h : Stands x q) : 0 ≤ q := Holds.nonneg h

theorem unique (h : Stands x p) (h' : Stands x q) : p = q := Holds.unique h h'

theorem not_isInfinite (h : Stands x q) : ¬ IsInfinite x := by
  unfold Stands at h
  intro hx
  rw [hx] at h
  cases h

/-- The digits of a double that is finite and not negative. -/
theorem digits (h : Stands x q) :
    (∃ s, x.toModel.unpack = .zero s ∧ q = 0) ∨
    ∃ m e hm, x.toModel.unpack = .finite .positive m e hm ∧ q = m * 2 ^ e ∧ Canonical m e ∧
      e ≤ 971 := by
  unfold Stands at h
  generalize hu : x.toModel.unpack = u at h
  cases h with
  | zero s => exact .inl ⟨s, rfl, rfl⟩
  | finite m e hm => exact .inr ⟨m, e, hm, rfl, rfl, canonical_of_unpack hu⟩

end Stands

/-! ## Rounded results -/

/-- The power of two that is above all finite doubles. -/
def limit : ℚ := 2 ^ 1024

theorem grain_pos : 0 < grain := zpow_pos two_pos _

theorem grain_le_one : grain ≤ 1 := zpow_le_one_of_nonpos₀ one_le_two (by decide)

theorem two_pow_le_limit {k : Nat} (hk : k ≤ 1024) : (2 : ℚ) ^ k ≤ limit :=
  pow_le_pow_right₀ one_le_two hk

theorem Near.refl (q : ℚ) : Near q q where
  error := by
    rw [sub_self, abs_zero]
    exact le_max_of_le_right grain_pos.le
  eq_zero := id

/-- The double is the rounded form of `q`: next to it, or an infinity where no finite double is. -/
inductive Rounded (x : Float) (q : ℚ) : Prop
  | near {w : ℚ} (stands : Stands x w) (near : Near w q)
  | beyond (infinite : IsInfinite x) (le : limit ≤ q * (1 + 1 / 2 ^ 53))

theorem limit_le {m : Nat} {e : Int} (hm : 2 ^ 52 ≤ m) (he : 972 ≤ e) : limit ≤ m * 2 ^ e := by
  have hmantissa : (2 : ℚ) ^ 52 ≤ m := by exact_mod_cast hm
  have hsplit : limit = 2 ^ 52 * 2 ^ (972 : Int) := by
    rw [limit, ← zpow_natCast, ← zpow_natCast, ← zpow_add₀ two_ne_zero]
    rfl
  rw [hsplit]
  exact mul_le_mul hmantissa (zpow_le_zpow_right₀ one_le_two he) (by positivity) (by positivity)

/-- The largest double is the limit less its last digit. -/
theorem Stands.le_largest {x : Float} {q : ℚ} (h : Stands x q) : q ≤ limit - limit / 2 ^ 53 := by
  have hsplit : limit = 2 ^ 53 * 2 ^ (971 : Int) := by
    rw [limit, ← zpow_natCast, ← zpow_natCast, ← zpow_add₀ two_ne_zero]
    rfl
  have hlargest : limit - limit / 2 ^ 53 = (2 ^ 53 - 1) * 2 ^ (971 : Int) := by
    rw [hsplit]
    field_simp
  rw [hlargest]
  obtain ⟨_, _, rfl⟩ | ⟨m, e, _, _, rfl, hc, he⟩ := h.digits
  · exact mul_nonneg (by norm_num) (zpow_nonneg two_pos.le _)
  · have hmantissa : (m : ℚ) ≤ 2 ^ 53 - 1 := by
      have hsucc : ((m + 1 : Nat) : ℚ) ≤ (2 ^ 53 : Nat) := Nat.cast_le.2 hc.lt
      push_cast at hsucc
      linarith
    exact mul_le_mul hmantissa (zpow_le_zpow_right₀ one_le_two he) (by positivity) (by norm_num)

theorem Stands.lt_limit {x : Float} {q : ℚ} (h : Stands x q) : q < limit := by
  have hpos : 0 < limit := pow_pos two_pos _
  have := h.le_largest
  linarith

/-- A canonical datum next to `q` is packed into a rounded form of `q`. -/
theorem rounded_pack {u : UnpackedFloat} {w q : ℚ} (hu : Holds u w) (hc : IsCanonical u)
    (h : Near w q) : Rounded (.ofModel (.pack u)) q := by
  cases hu with
  | zero s =>
    refine .near (w := 0) ?_ h
    unfold Stands
    rw [unpack_pack_zero]
    exact .zero s
  | finite m e hm =>
    cases le_or_gt e 971 with
    | inl he =>
      refine .near (w := m * 2 ^ e) ?_ h
      unfold Stands
      rw [unpack_pack_finite hm hc he]
      exact .finite m e hm
    | inr he =>
      have hlarge : limit ≤ m * 2 ^ e := limit_le (hc.full.resolve_right (by omega)) (by omega)
      refine .beyond (unpack_pack_large hm (by omega)) ?_
      have herror := (abs_le.1 h.error).2
      cases le_total grain (q / 2 ^ 53) with
      | inl hnormal =>
        rw [max_eq_left hnormal] at herror
        linarith
      | inr hsmall =>
        have hhuge := two_pow_le_limit (k := 54) (by decide)
        have htiny := grain_le_one
        rw [max_eq_right hsmall] at herror
        linarith

/-! ## Operations -/

theorem log2_shiftLeft {m : Nat} (hm : 0 < m) (k : Nat) : (m <<< k).log2 = m.log2 + k := by
  rw [Nat.shiftLeft_eq, Nat.log2_eq_iff (Nat.mul_pos hm (Nat.two_pow_pos k)).ne']
  constructor
  · rw [pow_add]
    exact Nat.mul_le_mul_right _ (Nat.log2_self_le hm.ne')
  · rw [Nat.add_right_comm, pow_add]
    exact Nat.mul_lt_mul_of_pos_right Nat.lt_log2_self (Nat.two_pow_pos k)

/-- A mantissa is lengthened when it is too short, so that rounding it finds all its digits. -/
theorem round_near {m : Nat} (hm : 0 < m) (e : Int) :
    ∃ w, Holds (UnpackedFloat.round Format.binary64 .positive m e) w ∧
      IsCanonical (UnpackedFloat.round Format.binary64 .positive m e) ∧ Near w (m * 2 ^ e) := by
  obtain ⟨k, hk⟩ : ∃ k, k = (e - Format.binary64.targetExponent (totalExponent m e)).toNat := ⟨_, rfl⟩
  have htotal : totalExponent (m <<< k) (e - k) = totalExponent m e := by
    unfold totalExponent
    rw [log2_shiftLeft hm]
    push_cast
    omega
  have hvalue : ((m <<< k : Nat) : ℚ) * 2 ^ (e - k : Int) = m * 2 ^ e := by
    rw [Nat.shiftLeft_eq, zpow_sub₀ two_ne_zero, zpow_natCast]
    push_cast
    field_simp
  have hround := roundWithAccuracy_near (e := e - k) (Reads.ofExact (m <<< k)) (by
    rw [htotal]
    omega)
  rw [hvalue] at hround
  simpa only [UnpackedFloat.round, decreaseExponent, ← hk] using hround

theorem normalize_near (n : Nat) (e : Int) (s : Sign) :
    ∃ w, Holds (UnpackedFloat.normalize Format.binary64 n e s) w ∧
      IsCanonical (UnpackedFloat.normalize Format.binary64 n e s) ∧ Near w (n * 2 ^ e) := by
  unfold UnpackedFloat.normalize
  cases n with
  | zero =>
    refine ⟨0, .zero s, trivial, ?_⟩
    rw [Nat.cast_zero, zero_mul]
    exact .refl 0
  | succ n =>
    have hcompare : compare ((n + 1 : Nat) : Int) 0 = .gt := Int.compare_eq_gt.2 (by omega)
    rw [hcompare]
    exact round_near n.succ_pos e

variable {x y : Float} {p q : ℚ}

/-- The product of two mantissas is long enough to be rounded, or reaches down far enough. -/
theorem le_targetExponent_mul {m₁ m₂ : Nat} {e₁ e₂ : Int} (h₁ : 0 < m₁) (h₂ : 0 < m₂)
    (hc₁ : Canonical m₁ e₁) (hc₂ : Canonical m₂ e₂) :
    e₁ + e₂ ≤ Format.binary64.targetExponent (totalExponent (m₁ * m₂) (e₁ + e₂)) := by
  rw [targetExponent_eq, totalExponent]
  have hlong {a b : Nat} (ha : 2 ^ 52 ≤ a) (hb : 0 < b) : 52 ≤ (a * b).log2 :=
    (Nat.le_log2 (by positivity)).2 (le_mul_of_le_of_one_le ha hb)
  obtain hfull₁ | hleast₁ := hc₁.full
  · have := hlong hfull₁ h₂
    omega
  obtain hfull₂ | hleast₂ := hc₂.full
  · have := hlong hfull₂ h₁
    rw [Nat.mul_comm] at this
    omega
  · omega

theorem rounded_mul (hx : Stands x p) (hy : Stands y q) : Rounded (x * y) (p * q) := by
  change Rounded (.ofModel (.pack (mul Format.binary64 x.toModel.unpack y.toModel.unpack))) (p * q)
  obtain ⟨s, hu, rfl⟩ | ⟨m₁, e₁, hm₁, hu, rfl, hc₁, _⟩ := hx.digits
  · rw [zero_mul]
    obtain ⟨t, hv, _⟩ | ⟨m₂, e₂, hm₂, hv, _⟩ := hy.digits
    · rw [hu, hv]
      exact rounded_pack (.zero _) trivial (.refl 0)
    · rw [hu, hv]
      exact rounded_pack (.zero _) trivial (.refl 0)
  · obtain ⟨t, hv, rfl⟩ | ⟨m₂, e₂, hm₂, hv, rfl, hc₂, _⟩ := hy.digits
    · rw [hu, hv, mul_zero]
      exact rounded_pack (.zero _) trivial (.refl 0)
    · obtain ⟨w, hw, hc, hnear⟩ := roundWithAccuracy_near (Reads.ofExact (m₁ * m₂))
        (le_targetExponent_mul hm₁ hm₂ hc₁ hc₂)
      rw [hu, hv]
      refine rounded_pack hw hc ?_
      rw [zpow_add₀ two_ne_zero] at hnear
      push_cast at hnear
      rwa [mul_mul_mul_comm] at hnear

/-- A quotient is computed to enough digits, and the rest of the division says what was left out. -/
theorem divCore_reads {m₁ m₂ : Nat} (h₁ : 0 < m₁) (h₂ : 0 < m₂) (e₁ e₂ : Int) :
    ∃ m e acc r, divCore Format.binary64 m₁ e₁ m₂ e₂ = (m, e, acc) ∧
      Reads (.ofMantissaAndAccuracy m acc) r ∧
      e ≤ Format.binary64.targetExponent (totalExponent m e) ∧
      r * 2 ^ e = (m₁ * 2 ^ e₁) / (m₂ * 2 ^ e₂) := by
  obtain ⟨t, ht⟩ : ∃ t, t = min (e₁ - e₂)
      (Format.binary64.targetExponent (totalExponent m₁ e₁ - totalExponent m₂ e₂)) := ⟨_, rfl⟩
  obtain ⟨k, hk⟩ : ∃ k : Nat, k = (e₁ - e₂ - t).toNat := ⟨_, rfl⟩
  have hke : (k : Int) = e₁ - e₂ - t := by omega
  have hpos : (0 : ℚ) < m₂ := by exact_mod_cast h₂
  refine ⟨m₁ <<< k / m₂, t, accuracyOfFraction (m₁ <<< k % m₂) m₂, _, ?_,
    Reads.ofFraction _ (Nat.mod_lt _ h₂), ?_, ?_⟩
  · rw [hk, ht]
    rfl
  · rw [targetExponent_eq, totalExponent, totalExponent] at ht
    rw [targetExponent_eq, totalExponent]
    cases le_or_gt t (-1074) with
    | inl hleast => omega
    | inr hleast =>
      have hlong : 52 ≤ (m₁ <<< k / m₂).log2 := by
        have hquot : 2 ^ 52 ≤ m₁ <<< k / m₂ := by
          rw [Nat.le_div_iff_mul_le h₂, Nat.shiftLeft_eq]
          calc 2 ^ 52 * m₂ ≤ 2 ^ 52 * 2 ^ (m₂.log2 + 1) :=
                Nat.mul_le_mul_left _ Nat.lt_log2_self.le
            _ = 2 ^ (52 + (m₂.log2 + 1)) := (pow_add ..).symm
            _ ≤ 2 ^ (m₁.log2 + k) := Nat.pow_le_pow_right two_pos (by omega)
            _ = 2 ^ m₁.log2 * 2 ^ k := pow_add ..
            _ ≤ m₁ * 2 ^ k := Nat.mul_le_mul_right _ (Nat.log2_self_le h₁.ne')
        exact (Nat.le_log2 (by omega)).2 hquot
      omega
  · have hdivision : ((m₁ <<< k / m₂ : Nat) : ℚ) + (m₁ <<< k % m₂ : Nat) / m₂ = m₁ * 2 ^ k / m₂ := by
      rw [eq_div_iff hpos.ne', add_mul, div_mul_cancel₀ _ hpos.ne']
      rw [Nat.shiftLeft_eq]
      exact_mod_cast Nat.div_add_mod' (m₁ * 2 ^ k) m₂
    have hscale : (2 : ℚ) ^ e₁ = 2 ^ k * 2 ^ t * 2 ^ e₂ := by
      rw [← zpow_natCast, ← zpow_add₀ two_ne_zero, ← zpow_add₀ two_ne_zero]
      congr 1
      omega
    rw [hdivision, hscale]
    field_simp

theorem rounded_div_finite {m₁ m₂ : Nat} (h₁ : 0 < m₁) (h₂ : 0 < m₂) (e₁ e₂ : Int) :
    Rounded (.ofModel (.pack (div Format.binary64 (.finite .positive m₁ e₁ h₁)
      (.finite .positive m₂ e₂ h₂)))) ((m₁ * 2 ^ e₁) / (m₂ * 2 ^ e₂)) := by
  obtain ⟨m, e, acc, r, hcore, hreads, htarget, hvalue⟩ := divCore_reads h₁ h₂ e₁ e₂
  obtain ⟨w, hw, hc, hnear⟩ := roundWithAccuracy_near hreads htarget
  have hdiv : div Format.binary64 (.finite .positive m₁ e₁ h₁) (.finite .positive m₂ e₂ h₂) =
      roundWithAccuracy Format.binary64 .positive m e acc := by
    simp only [div, hcore]
    rfl
  rw [hdiv]
  exact rounded_pack hw hc (hvalue ▸ hnear)

theorem rounded_div (hx : Stands x p) (hy : Stands y q) (hq : 0 < q) : Rounded (x / y) (p / q) := by
  change Rounded (.ofModel (.pack (div Format.binary64 x.toModel.unpack y.toModel.unpack))) (p / q)
  obtain ⟨t, hv, rfl⟩ | ⟨m₂, e₂, hm₂, hv, rfl, _, _⟩ := hy.digits
  · exact absurd hq (lt_irrefl 0)
  obtain ⟨s, hu, rfl⟩ | ⟨m₁, e₁, hm₁, hu, rfl, _, _⟩ := hx.digits
  · rw [hu, hv, zero_div]
    exact rounded_pack (.zero _) trivial (.refl 0)
  · rw [hu, hv]
    exact rounded_div_finite hm₁ hm₂ e₁ e₂

/-- Two mantissas brought to the smaller exponent keep their values. -/
theorem decreaseExponent_value {m : Nat} {e t : Int} (h : t ≤ e) :
    (((decreaseExponent m e t).1 : Nat) : ℚ) * 2 ^ t = m * 2 ^ e := by
  have hscale : (2 : ℚ) ^ e = 2 ^ (e - t).toNat * 2 ^ t := by
    rw [← zpow_natCast, ← zpow_add₀ two_ne_zero]
    congr 1
    omega
  rw [hscale, decreaseExponent, Nat.shiftLeft_eq]
  push_cast
  ring

theorem rounded_self {u : UnpackedFloat} (hx : x.toModel.unpack = u) (h : Stands x q) :
    Rounded (.ofModel (.pack u)) q := by
  subst hx
  refine rounded_pack h ?_ (.refl q)
  obtain ⟨s, hu, _⟩ | ⟨m, e, hm, hu, _, hc, _⟩ := h.digits
  · rw [hu]
    trivial
  · rw [hu]
    exact hc

theorem rounded_add (hx : Stands x p) (hy : Stands y q) : Rounded (x + y) (p + q) := by
  change Rounded (.ofModel (.pack (add Format.binary64 x.toModel.unpack y.toModel.unpack))) (p + q)
  obtain ⟨s, hu, rfl⟩ | ⟨m₁, e₁, hm₁, hu, rfl, _, _⟩ := hx.digits
  · obtain ⟨t, hv, rfl⟩ | ⟨m₂, e₂, hm₂, hv, hq, _⟩ := hy.digits
    · rw [hu, hv, add_zero, add]
      split <;> exact rounded_pack (.zero _) trivial (.refl 0)
    · rw [hu, hv, zero_add]
      exact rounded_self hv hy
  · obtain ⟨t, hv, rfl⟩ | ⟨m₂, e₂, hm₂, hv, rfl, _, _⟩ := hy.digits
    · rw [hu, hv, add_zero]
      exact rounded_self hu hx
    · obtain ⟨w, hw, hc, hnear⟩ := normalize_near ((decreaseExponent m₁ e₁ (min e₁ e₂)).1 +
        (decreaseExponent m₂ e₂ (min e₁ e₂)).1) (min e₁ e₂) .positive
      rw [Nat.cast_add, add_mul, decreaseExponent_value (min_le_left _ _),
        decreaseExponent_value (min_le_right _ _)] at hnear
      rw [hu, hv]
      exact rounded_pack hw hc hnear

theorem rounded_sub (hx : Stands x p) (hy : Stands y q) (h : q ≤ p) : Rounded (x - y) (p - q) := by
  change Rounded (.ofModel (.pack (sub Format.binary64 x.toModel.unpack y.toModel.unpack))) (p - q)
  obtain ⟨t, hv, rfl⟩ | ⟨m₂, e₂, hm₂, hv, rfl, _, _⟩ := hy.digits
  · rw [hv, sub_zero]
    obtain ⟨s, hu, rfl⟩ | ⟨m₁, e₁, hm₁, hu, _⟩ := hx.digits
    · rw [hu, sub]
      split <;> exact rounded_pack (.zero _) trivial (.refl 0)
    · rw [hu]
      exact rounded_self hu hx
  · have hpos : (0 : ℚ) < m₂ * 2 ^ e₂ := by positivity
    obtain ⟨s, hu, rfl⟩ | ⟨m₁, e₁, hm₁, hu, rfl, _, _⟩ := hx.digits
    · exact absurd h (not_le.2 hpos)
    · have hle : (decreaseExponent m₂ e₂ (min e₁ e₂)).1 ≤ (decreaseExponent m₁ e₁ (min e₁ e₂)).1 := by
        rw [← decreaseExponent_value (min_le_left e₁ e₂),
          ← decreaseExponent_value (min_le_right e₁ e₂)] at h
        exact_mod_cast le_of_mul_le_mul_right h (by positivity)
      obtain ⟨w, hw, hc, hnear⟩ := normalize_near ((decreaseExponent m₁ e₁ (min e₁ e₂)).1 -
        (decreaseExponent m₂ e₂ (min e₁ e₂)).1) (min e₁ e₂) .positive
      rw [Nat.cast_sub hle, sub_mul, decreaseExponent_value (min_le_left _ _),
        decreaseExponent_value (min_le_right _ _)] at hnear
      rw [hu, hv]
      rw [Nat.cast_sub hle] at hw hc
      exact rounded_pack hw hc hnear

/-! ## Infinities -/

theorem isInfinite_pack : IsInfinite (.ofModel (.pack (.infinity .positive))) :=
  unpack_pack_infinity .positive

theorem IsInfinite.add_stands (hx : IsInfinite x) (hy : Stands y q) : IsInfinite (x + y) := by
  have hsum : add Format.binary64 x.toModel.unpack y.toModel.unpack = .infinity .positive := by
    obtain ⟨s, hv, _⟩ | ⟨m, e, hm, hv, _⟩ := hy.digits <;> rw [hx, hv] <;> rfl
  change IsInfinite (.ofModel (.pack (add Format.binary64 x.toModel.unpack y.toModel.unpack)))
  rw [hsum]
  exact isInfinite_pack

theorem Stands.add_isInfinite (hx : Stands x p) (hy : IsInfinite y) : IsInfinite (x + y) := by
  have hsum : add Format.binary64 x.toModel.unpack y.toModel.unpack = .infinity .positive := by
    obtain ⟨s, hu, _⟩ | ⟨m, e, hm, hu, _⟩ := hx.digits <;> rw [hu, hy] <;> rfl
  change IsInfinite (.ofModel (.pack (add Format.binary64 x.toModel.unpack y.toModel.unpack)))
  rw [hsum]
  exact isInfinite_pack

theorem IsInfinite.add (hx : IsInfinite x) (hy : IsInfinite y) : IsInfinite (x + y) := by
  change IsInfinite (.ofModel (.pack (UnpackedFloat.add Format.binary64 x.toModel.unpack
    y.toModel.unpack)))
  rw [hx, hy]
  exact isInfinite_pack

theorem IsInfinite.sub_stands (hx : IsInfinite x) (hy : Stands y q) : IsInfinite (x - y) := by
  have hdifference : sub Format.binary64 x.toModel.unpack y.toModel.unpack = .infinity .positive := by
    obtain ⟨s, hv, _⟩ | ⟨m, e, hm, hv, _⟩ := hy.digits <;> rw [hx, hv] <;> rfl
  change IsInfinite (.ofModel (.pack (sub Format.binary64 x.toModel.unpack y.toModel.unpack)))
  rw [hdifference]
  exact isInfinite_pack

theorem IsInfinite.div_stands (hx : IsInfinite x) (hy : Stands y q) (hq : 0 < q) :
    IsInfinite (x / y) := by
  change IsInfinite (.ofModel (.pack (div Format.binary64 x.toModel.unpack y.toModel.unpack)))
  obtain ⟨s, _, rfl⟩ | ⟨m, e, hm, hv, _⟩ := hy.digits
  · exact absurd hq (lt_irrefl 0)
  · rw [hx, hv]
    exact isInfinite_pack

theorem Stands.div_isInfinite (hx : Stands x p) (hy : IsInfinite y) : Stands (x / y) 0 := by
  change Stands (.ofModel (.pack (div Format.binary64 x.toModel.unpack y.toModel.unpack))) 0
  unfold Stands
  obtain ⟨s, hu, _⟩ | ⟨m, e, hm, hu, _⟩ := hx.digits <;> rw [hu, hy] <;>
    exact (unpack_pack_zero _).symm ▸ .zero _

/-! ## Integers -/

theorem isInf_of_isInfinite (hx : IsInfinite x) : x.isInf = true := by
  change x.toModel.unpack.isInf = true
  rw [hx]
  rfl

/-- A rounded result that is kept because it is finite lies next to the exact one. -/
theorem near_of_finite? (h : Rounded x q) (hy : finite? x = some y) : ∃ w, Stands y w ∧ Near w q := by
  unfold finite? at hy
  split at hy
  · cases hy
  next hfinite =>
    obtain rfl := Option.some.inj hy
    cases h with
    | near stands near => exact ⟨_, stands, near⟩
    | beyond infinite _ => exact absurd (isInf_of_isInfinite infinite) hfinite

theorem rounded_ofInt (k : Nat) : Rounded (.ofModel (.ofInt k)) k := by
  obtain ⟨w, hw, hc, hnear⟩ := normalize_near k 0 .positive
  rw [zpow_zero, mul_one] at hnear
  exact rounded_pack hw hc hnear

theorem ofInt?_near {n : Int} (hn : 0 ≤ n) (h : ofInt? n = some x) : ∃ w, Stands x w ∧ Near w n := by
  obtain ⟨k, rfl⟩ := Int.eq_ofNat_of_zero_le hn
  exact near_of_finite? (rounded_ofInt k) h

theorem rounded_quotient (k : Nat) {l : Nat} (hl : 0 < l) :
    Rounded (.ofModel (.pack (div Format.binary64 (unpackInt k) (unpackInt l)))) (k / l) := by
  obtain ⟨l, rfl⟩ := Nat.exists_eq_add_of_lt hl
  rw [Nat.zero_add]
  cases k with
  | zero =>
    have hzero : ((0 : Nat) : ℚ) / (l + 1 : Nat) = 0 := by rw [Nat.cast_zero, zero_div]
    rw [hzero]
    exact rounded_pack (.zero _) trivial (.refl 0)
  | succ k =>
    have hround := rounded_div_finite k.succ_pos l.succ_pos 0 0
    rw [zpow_zero, mul_one, mul_one] at hround
    exact hround

theorem quotient?_near {a b : Int} (ha : 0 ≤ a) (hb : 0 < b) (h : quotient? a b = some x) :
    ∃ w, Stands x w ∧ Near w (a / b) := by
  obtain ⟨k, rfl⟩ := Int.eq_ofNat_of_zero_le ha
  obtain ⟨l, rfl⟩ := Int.eq_ofNat_of_zero_le hb.le
  exact near_of_finite? (rounded_quotient k (Int.natCast_pos.1 hb)) h

/-! ## Values that have a double -/

/-- Values up to here have doubles, with enough above them for a few roundings. -/
@[irreducible]
def room : ℚ := 2 ^ 1000

theorem room_pos : 0 < room := by
  rw [room]
  exact pow_pos two_pos _

theorem room_lt_limit : room * 2 ^ 16 < limit := by
  rw [room, limit, ← pow_add]
  exact pow_lt_pow_right₀ one_lt_two (by norm_num)

theorem room_le_limit : room ≤ limit :=
  (le_mul_of_one_le_right room_pos.le (one_le_pow₀ one_le_two)).trans room_lt_limit.le

theorem isInf_of_stands (h : Stands x q) : x.isInf = false := by
  change x.toModel.unpack.isInf = false
  rcases h.digits with ⟨s, hu, _⟩ | ⟨m, e, hm, hu, _⟩ <;> rw [hu] <;> rfl

/-- A rounded result that is below the limit by more than its last digit is finite, and kept. -/
theorem finite?_of_lt (h : Rounded x q) (hq : q * (1 + 1 / 2 ^ 53) < limit) :
    finite? x = some x ∧ ∃ w, Stands x w ∧ Near w q := by
  cases h with
  | near stands near => exact ⟨if_neg (Bool.eq_false_iff.1 (isInf_of_stands stands)), _, stands, near⟩
  | beyond _ hle => exact absurd hq (not_lt.2 hle)

/-- A rounded result within the room is finite, and kept. -/
theorem finite?_of_rounded (h : Rounded x q) (hq : q ≤ room) :
    finite? x = some x ∧ ∃ w, Stands x w ∧ Near w q := by
  have hbound : q * (1 + 1 / 2 ^ 53) ≤ room * 2 ^ 16 :=
    mul_le_mul hq (by norm_num) (by norm_num) room_pos.le
  exact finite?_of_lt h (hbound.trans_lt room_lt_limit)

end Conveyor.Binary64
