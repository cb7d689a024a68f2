-- SUMMARY: Rounding a mantissa to the digits of a double is never off by more than half a unit in the last place.
import Conveyor.Number.Binary64
import Mathlib

/-!
# Rounding

Every operation on doubles computes a mantissa with two more bits, one for the half and one for all
that lies below, and rounds it once. The two bits are enough to round to nearest, so the result is as
close to the exact value as its last digit allows.
-/

open Float.Model (Format UnpackedFloat totalExponent)
open Float.Model.UnpackedFloat

namespace Conveyor.Binary64

/-! ## What the two bits say -/

/-- The value of the bit after the last digit. -/
def half (bit : Bool) : ℚ := if bit then 1 / 2 else 0

/-- The mantissa and its bits tell where `q` lies: how many whole and half units it has, and whether
anything is left below. -/
structure Reads (em : ExtendedMantissa) (q : ℚ) : Prop where
  le : em.mantissa + half em.roundBit ≤ q
  lt : q < em.mantissa + half em.roundBit + 1 / 2
  sticky : em.stickyBit = false ↔ q = em.mantissa + half em.roundBit

namespace Reads

variable {em : ExtendedMantissa} {q : ℚ}

theorem floor_le (h : Reads em q) : (em.mantissa : ℚ) ≤ q := by
  have := h.le
  unfold half at this
  split at this <;> linarith

theorem ofExact (m : Nat) : Reads (.ofMantissaAndAccuracy m .exact) m := by
  constructor <;> simp [ExtendedMantissa.ofMantissaAndAccuracy, half]

/-- The rest of a division, compared with half the divisor, says where the quotient lies. -/
theorem ofFraction (m : Nat) {num den : Nat} (h : num < den) :
    Reads (.ofMantissaAndAccuracy m (accuracyOfFraction num den)) (m + num / den) := by
  have hden : (0 : ℚ) < den := by exact_mod_cast Nat.zero_lt_of_lt h
  have hlt : (num : ℚ) / den < 1 := (div_lt_one hden).2 (by exact_mod_cast h)
  unfold accuracyOfFraction
  split
  · subst num
    simpa using ofExact m
  next hnum =>
  have hpos : (0 : ℚ) < num / den := div_pos (by exact_mod_cast Nat.pos_of_ne_zero hnum) hden
  cases hcmp : compare (2 * num) den with
  | lt =>
    have hhalf : (num : ℚ) / den < 1 / 2 := by
      rw [div_lt_div_iff₀ hden two_pos]
      exact_mod_cast (by have := Nat.compare_eq_lt.1 hcmp; omega : num * 2 < 1 * den)
    constructor <;> simp [ExtendedMantissa.ofMantissaAndAccuracy, half] <;> grind
  | eq =>
    have hhalf : (num : ℚ) / den = 1 / 2 := by
      rw [div_eq_div_iff hden.ne' two_ne_zero]
      exact_mod_cast (by have := Nat.compare_eq_eq.1 hcmp; omega : num * 2 = 1 * den)
    constructor <;> simp [ExtendedMantissa.ofMantissaAndAccuracy, half] <;> grind
  | gt =>
    have hhalf : (1 : ℚ) / 2 < num / den := by
      rw [div_lt_div_iff₀ two_pos hden]
      exact_mod_cast (by have := Nat.compare_eq_gt.1 hcmp; omega : 1 * den < num * 2)
    constructor <;> simp [ExtendedMantissa.ofMantissaAndAccuracy, half] <;> grind

theorem shiftRightOne (h : Reads em q) : Reads em.shiftRightOne (q / 2) := by
  obtain ⟨m, r, s⟩ := em
  obtain ⟨hle, hlt, hsticky⟩ := h
  have hm : (m : ℚ) = 2 * (m / 2 : Nat) + (m % 2 : Nat) := by
    exact_mod_cast (Nat.div_add_mod m 2).symm
  simp only [half] at hle hlt hsticky
  obtain hr | hr := Nat.mod_two_eq_zero_or_one m
  · rw [hr, Nat.cast_zero, add_zero] at hm
    constructor <;> cases r <;> cases s <;> simp_all [ExtendedMantissa.shiftRightOne, half] <;> grind
  · rw [hr, Nat.cast_one] at hm
    constructor <;> cases r <;> cases s <;> simp_all [ExtendedMantissa.shiftRightOne, half] <;> grind

theorem shiftRight (h : Reads em q) (n : Nat) : Reads (em >>> n) (q / 2 ^ n) := by
  change Reads (n.repeat ExtendedMantissa.shiftRightOne em) (q / 2 ^ n)
  induction n with
  | zero => simpa [Nat.repeat] using h
  | succ n ih =>
    rw [Nat.repeat, pow_succ, ← div_div]
    exact ih.shiftRightOne

/-- The rounded mantissa is one of the two next to the exact value, and the closer one. -/
theorem abs_rounded_sub_le (h : Reads em q) : |(em.roundedMantissa : ℚ) - q| ≤ 1 / 2 := by
  obtain ⟨m, r, s⟩ := em
  obtain ⟨hle, hlt, hsticky⟩ := h
  have hlow : (0 : ℚ) ≤ (m % 2 : Nat) := Nat.cast_nonneg _
  have hhigh : ((m % 2 : Nat) : ℚ) ≤ 1 := by exact_mod_cast Nat.le_of_lt_succ (Nat.mod_lt m two_pos)
  simp only [half] at hle hlt hsticky
  rw [abs_le]
  cases r <;> cases s <;>
    simp only [ExtendedMantissa.roundedMantissa, ExtendedMantissa.accuracy,
      Accuracy.roundToNearestEven, Nat.cast_add, Nat.cast_one, if_true, if_false,
      Bool.false_eq_true, true_iff] at hle hlt hsticky ⊢ <;>
    constructor <;> linarith

end Reads

theorem mantissa_shiftRight (em : ExtendedMantissa) (n : Nat) :
    (em >>> n).mantissa = em.mantissa / 2 ^ n := by
  change (n.repeat ExtendedMantissa.shiftRightOne em).mantissa = em.mantissa / 2 ^ n
  induction n with
  | zero => simp [Nat.repeat]
  | succ n ih =>
    rw [Nat.repeat, pow_succ, ← Nat.div_div_eq_div_mul, ← ih]
    rfl

theorem le_roundedMantissa (em : ExtendedMantissa) : em.mantissa ≤ em.roundedMantissa := by
  obtain ⟨m, r, s⟩ := em
  cases r <;> cases s <;>
    simp [ExtendedMantissa.roundedMantissa, ExtendedMantissa.accuracy, Accuracy.roundToNearestEven]

theorem roundedMantissa_le (em : ExtendedMantissa) : em.roundedMantissa ≤ em.mantissa + 1 := by
  obtain ⟨m, r, s⟩ := em
  have := Nat.mod_lt m two_pos
  cases r <;> cases s <;>
    simp [ExtendedMantissa.roundedMantissa, ExtendedMantissa.accuracy,
      Accuracy.roundToNearestEven]
  omega

/-! ## Doubles as mantissa and exponent -/

/-- A mantissa of at most 53 digits over an exponent in range; fewer digits only over the least
exponent. -/
structure Canonical (m : Nat) (e : Int) : Prop where
  lt : m < 2 ^ 53
  le : -1074 ≤ e
  full : 2 ^ 52 ≤ m ∨ e = -1074

/-- The datum is not negative and has the value `q`. -/
inductive Holds : UnpackedFloat → ℚ → Prop
  | zero (s : Sign) : Holds (.zero s) 0
  | finite (m : Nat) (e : Int) (h : 0 < m) : Holds (.finite .positive m e h) (m * 2 ^ e)

/-- The digits of the datum are those of a double. -/
def IsCanonical : UnpackedFloat → Prop
  | .finite _ m e _ => Canonical m e
  | _ => True

/-- Half the least positive double. -/
def grain : ℚ := 2 ^ (-1075 : Int)

/-- No further from `q` than half a unit in the last place; from nothing not at all. -/
structure Near (w q : ℚ) : Prop where
  error : |w - q| ≤ max (q / 2 ^ 53) grain
  eq_zero : q = 0 → w = 0

theorem targetExponent_eq (t : Int) : Format.binary64.targetExponent t = max (t - 53) (-1074) := rfl

theorem shiftToTargetExponent_eq {m : Nat} {e t : Int} {acc : Accuracy}
    (ht : t = Format.binary64.targetExponent (totalExponent m e)) (he : e ≤ t) :
    shiftToTargetExponent Format.binary64 m e acc =
      (ExtendedMantissa.ofMantissaAndAccuracy m acc >>> (t - e).toNat, t) := by
  unfold shiftToTargetExponent shiftToExponent
  rw [← ht]
  simp only [Int.toNat_of_nonneg (Int.sub_nonneg.2 he)]
  congr 1
  omega

/-- A rounded mantissa has 53 digits, or is one above; then its last digit is a zero that is dropped. -/
theorem shift_rounded {n : Nat} {t : Int} (hn : n ≤ 2 ^ 53) (ht : -1074 ≤ t)
    (hfull : 2 ^ 52 ≤ n ∨ t = -1074) :
    ∃ m e, (shiftToTargetExponent Format.binary64 n t .exact).1.mantissa = m ∧
      (shiftToTargetExponent Format.binary64 n t .exact).2 = e ∧
      (m : ℚ) * 2 ^ e = n * 2 ^ t ∧ Canonical m e := by
  cases Nat.lt_or_eq_of_le hn with
  | inl hlt =>
    have hlog : n.log2 < 53 := by
      cases n with
      | zero => decide
      | succ n => exact (Nat.log2_lt n.succ_ne_zero).2 hlt
    have hzero : (Format.binary64.targetExponent (totalExponent n t) - t).toNat = 0 := by
      rw [targetExponent_eq, totalExponent]
      omega
    refine ⟨n, t, ?_, ?_, rfl, hlt, ht, hfull⟩
    · simp only [shiftToTargetExponent, shiftToExponent, hzero, mantissa_shiftRight, pow_zero,
        Nat.div_one]
      rfl
    · simp only [shiftToTargetExponent, shiftToExponent, hzero]
      simp
  | inr heq =>
    subst heq
    have hlog : (2 ^ 53 : Nat).log2 = 53 := Nat.log2_two_pow
    have hone : Format.binary64.targetExponent (totalExponent (2 ^ 53) t) = t + 1 := by
      rw [targetExponent_eq, totalExponent, hlog]
      omega
    rw [shiftToTargetExponent_eq hone.symm (by omega)]
    refine ⟨2 ^ 52, t + 1, ?_, rfl, ?_, by norm_num, by omega, .inl (Nat.le_refl _)⟩
    · rw [mantissa_shiftRight, show (t + 1 - t).toNat = 1 by omega]
      rfl
    · rw [zpow_add_one₀ two_ne_zero]
      push_cast
      ring

/-- What is left after a shift to `t` has 53 digits, or `t` is the least exponent. -/
theorem shifted_bounds {m k : Nat} {e t : Int} (ht : t = max (m.log2 + 1 + e - 53) (-1074))
    (hk : (k : Int) = t - e) : m / 2 ^ k < 2 ^ 53 ∧ (2 ^ 52 ≤ m / 2 ^ k ∨ t = -1074) := by
  constructor
  · rw [Nat.div_lt_iff_lt_mul (Nat.two_pow_pos k), ← pow_add]
    calc m < 2 ^ (m.log2 + 1) := Nat.lt_log2_self
      _ ≤ 2 ^ (53 + k) := Nat.pow_le_pow_right two_pos (by omega)
  · cases Decidable.em (t = -1074) with
    | inl hmin => exact .inr hmin
    | inr hmin =>
      have hm : m ≠ 0 := by
        rintro rfl
        simp only [Nat.log2_zero] at ht
        omega
      refine .inl ((Nat.le_div_iff_mul_le (Nat.two_pow_pos k)).2 ?_)
      calc 2 ^ 52 * 2 ^ k = 2 ^ m.log2 := by rw [← pow_add]; congr 1; omega
        _ ≤ m := Nat.log2_self_le hm

/-- The rounded mantissa is near what was rounded, if it has all digits or `t` is the least exponent. -/
theorem Reads.near {em : ExtendedMantissa} {q : ℚ} {t : Int} (h : Reads em q)
    (hfull : 2 ^ 52 ≤ em.mantissa ∨ t = -1074) : Near (em.roundedMantissa * 2 ^ t) (q * 2 ^ t) := by
  have hpos : (0 : ℚ) < 2 ^ t := zpow_pos two_pos t
  have herror : |(em.roundedMantissa * 2 ^ t - q * 2 ^ t : ℚ)| ≤ 1 / 2 * 2 ^ t := by
    rw [← sub_mul, abs_mul, abs_of_pos hpos]
    exact mul_le_mul_of_nonneg_right h.abs_rounded_sub_le hpos.le
  refine ⟨herror.trans ?_, fun hzero => ?_⟩
  · cases hfull with
    | inl hfull =>
      refine le_max_of_le_left ?_
      have hlow : ((2 : ℚ) ^ 52) ≤ q := le_trans (by exact_mod_cast hfull) h.floor_le
      rw [le_div_iff₀ (by positivity)]
      nlinarith [mul_le_mul_of_nonneg_right hlow hpos.le]
    | inr hleast =>
      refine le_max_of_le_right (le_of_eq ?_)
      rw [hleast, grain, show (-1074 : Int) = -1075 + 1 from rfl, zpow_add_one₀ two_ne_zero]
      ring
  · rw [hzero, sub_zero, abs_of_nonneg (by positivity)] at herror
    have hsmall : (em.roundedMantissa : ℚ) ≤ 1 / 2 := le_of_mul_le_mul_right herror hpos
    have hnone : em.roundedMantissa = 0 := by
      by_contra hne
      have hone : (1 : ℚ) ≤ em.roundedMantissa := by exact_mod_cast Nat.one_le_iff_ne_zero.2 hne
      linarith
    rw [hnone, Nat.cast_zero, zero_mul]

/-- The datum with these digits. -/
def ofDigits (m : Nat) (e : Int) : UnpackedFloat :=
  if h : m = 0 then .zero .positive else .finite .positive m e (Nat.pos_of_ne_zero h)

theorem holds_ofDigits (m : Nat) (e : Int) : Holds (ofDigits m e) (m * 2 ^ e) := by
  unfold ofDigits
  split
  next hzero =>
    rw [hzero, Nat.cast_zero, zero_mul]
    exact .zero _
  next => exact .finite m e _

theorem isCanonical_ofDigits {m : Nat} {e : Int} (h : Canonical m e) : IsCanonical (ofDigits m e) := by
  unfold ofDigits
  split
  · trivial
  · exact h

/-- A mantissa that is long enough, or reaches down to the least exponent, is rounded once. -/
theorem roundWithAccuracy_near {m : Nat} {e : Int} {acc : Accuracy} {q : ℚ}
    (hq : Reads (.ofMantissaAndAccuracy m acc) q)
    (he : e ≤ Format.binary64.targetExponent (totalExponent m e)) :
    ∃ w, Holds (roundWithAccuracy Format.binary64 .positive m e acc) w ∧
      IsCanonical (roundWithAccuracy Format.binary64 .positive m e acc) ∧ Near w (q * 2 ^ e) := by
  obtain ⟨t, ht⟩ : ∃ t, t = Format.binary64.targetExponent (totalExponent m e) := ⟨_, rfl⟩
  obtain ⟨k, hk⟩ : ∃ k : Nat, k = (t - e).toNat := ⟨_, rfl⟩
  have hke : (k : Int) = t - e := by omega
  obtain ⟨em, hem⟩ : ∃ em, em = ExtendedMantissa.ofMantissaAndAccuracy m acc >>> k := ⟨_, rfl⟩
  have hreads : Reads em (q / 2 ^ k) := hem ▸ hq.shiftRight k
  have hmantissa : em.mantissa = m / 2 ^ k := by
    rw [hem, mantissa_shiftRight]
    congr 1
    cases acc with
    | exact => rfl
    | inexact order => cases order <;> rfl
  obtain ⟨hlt, hfull⟩ := shifted_bounds (m := m) (k := k) (e := e) ht hke
  rw [← hmantissa] at hlt hfull
  have hmin : -1074 ≤ t := by rw [ht, targetExponent_eq]; omega
  obtain ⟨m', e', hm', he', hvalue, hcanonical⟩ := shift_rounded (t := t)
    ((roundedMantissa_le em).trans hlt) hmin (hfull.imp_left fun h => h.trans (le_roundedMantissa em))
  have hround : roundWithAccuracy Format.binary64 .positive m e acc = ofDigits m' e' := by
    unfold roundWithAccuracy
    rw [shiftToTargetExponent_eq ht (ht ▸ he), ← hk, ← hem]
    simp only [hm', he', ofDigits]
  have hscale : (q * 2 ^ e : ℚ) = q / 2 ^ k * 2 ^ t := by
    rw [show t = k + e by omega, zpow_add₀ two_ne_zero, zpow_natCast]
    field_simp
  rw [hround, hscale]
  refine ⟨em.roundedMantissa * 2 ^ t, ?_, isCanonical_ofDigits hcanonical, hreads.near hfull⟩
  exact hvalue ▸ holds_ofDigits m' e'

end Conveyor.Binary64
