-- SUMMARY: Doubles compare as their values do.
import Conveyor.Proofs.Double.Arithmetic
import Mathlib.Order.Compare

/-!
# Order of doubles

Canonical data compare by exponent first and mantissa second, and so do their values. An infinity is
above all finite doubles.
-/

open Float.Model (UnpackedFloat)
open Float.Model.UnpackedFloat

namespace Conveyor.Binary64

variable {x y : Float} {p q : ℚ}

/-! ## Finite doubles -/

/-- Above the least exponent the leading digit is there, so a larger exponent means a larger value. -/
theorem value_lt_of_exponent_lt {m₁ m₂ : Nat} {e₁ e₂ : Int} (h₁ : Canonical m₁ e₁)
    (h₂ : Canonical m₂ e₂) (he : e₁ < e₂) : (m₁ * 2 ^ e₁ : ℚ) < m₂ * 2 ^ e₂ := by
  have hfull : (2 : ℚ) ^ 52 ≤ m₂ := by
    have hle := h₁.le
    exact_mod_cast h₂.full.resolve_right (by omega)
  have hlt : (m₁ : ℚ) < 2 ^ 53 := by exact_mod_cast h₁.lt
  calc (m₁ * 2 ^ e₁ : ℚ) < 2 ^ 53 * 2 ^ e₁ := mul_lt_mul_of_pos_right hlt (by positivity)
    _ = 2 ^ 52 * 2 ^ (e₁ + 1) := by rw [zpow_add_one₀ two_ne_zero]; ring
    _ ≤ m₂ * 2 ^ e₂ :=
      mul_le_mul hfull (zpow_le_zpow_right₀ one_le_two (by omega)) (by positivity) (by positivity)

theorem compare_eq (hx : Stands x p) (hy : Stands y q) :
    UnpackedFloat.compare x.toModel.unpack y.toModel.unpack = some (compare p q) := by
  obtain ⟨s, hu, rfl⟩ | ⟨m₁, e₁, hm₁, hu, rfl, hc₁, _⟩ := hx.digits
  · obtain ⟨t, hv, rfl⟩ | ⟨m₂, e₂, hm₂, hv, rfl, _⟩ := hy.digits
    · rw [hu, hv, compare_eq_iff_eq.2 rfl]
      rfl
    · rw [hu, hv, compare_lt_iff_lt.2 (by positivity)]
      rfl
  · obtain ⟨t, hv, rfl⟩ | ⟨m₂, e₂, hm₂, hv, rfl, hc₂, _⟩ := hy.digits
    · rw [hu, hv, compare_gt_iff_gt.2 (by positivity)]
      rfl
    · rw [hu, hv]
      change some ((compare e₁ e₂).then (compare m₁ m₂)) = _
      congr 1
      rcases lt_trichotomy e₁ e₂ with hlt | rfl | hgt
      · rw [compare_lt_iff_lt.2 hlt, compare_lt_iff_lt.2 (value_lt_of_exponent_lt hc₁ hc₂ hlt)]
        rfl
      · have hpos : (0 : ℚ) < 2 ^ e₁ := by positivity
        rw [compare_eq_iff_eq.2 rfl]
        rcases lt_trichotomy m₁ m₂ with hlt | rfl | hgt
        · rw [compare_lt_iff_lt.2 hlt,
            compare_lt_iff_lt.2 (mul_lt_mul_of_pos_right (by exact_mod_cast hlt) hpos)]
          rfl
        · rw [compare_eq_iff_eq.2 rfl, compare_eq_iff_eq.2 rfl]
          rfl
        · rw [compare_gt_iff_gt.2 hgt,
            compare_gt_iff_gt.2 (mul_lt_mul_of_pos_right (by exact_mod_cast hgt) hpos)]
          rfl
      · rw [compare_gt_iff_gt.2 hgt, compare_gt_iff_gt.2 (value_lt_of_exponent_lt hc₂ hc₁ hgt)]
        rfl

/-! ## Doubles that are not negative -/

/-- The double is not negative; it stands for the value, or for the infinity above all values. -/
def Size (x : Float) : WithTop ℚ → Prop
  | none => IsInfinite x
  | some q => Stands x q

variable {v w : WithTop ℚ}

theorem Stands.size (h : Stands x q) : Size x q := h

theorem IsInfinite.size (h : IsInfinite x) : Size x ⊤ := h

theorem Size.unique (hx : Size x v) (hx' : Size x w) : v = w := by
  cases v with
  | top =>
    cases w with
    | top => rfl
    | coe q => exact absurd hx (Stands.not_isInfinite hx')
  | coe p =>
    cases w with
    | top => exact absurd hx' (Stands.not_isInfinite hx)
    | coe q => rw [Stands.unique hx hx']

theorem compare_coe (p q : ℚ) : compare (p : WithTop ℚ) (q : WithTop ℚ) = compare p q := by
  rcases lt_trichotomy p q with h | rfl | h
  · rw [compare_lt_iff_lt.2 h, compare_lt_iff_lt.2 (WithTop.coe_lt_coe.2 h)]
  · rw [compare_eq_iff_eq.2 rfl, compare_eq_iff_eq.2 rfl]
  · rw [compare_gt_iff_gt.2 h, compare_gt_iff_gt.2 (WithTop.coe_lt_coe.2 h)]

theorem compare_eq_of_size (hx : Size x v) (hy : Size y w) :
    UnpackedFloat.compare x.toModel.unpack y.toModel.unpack = some (compare v w) := by
  cases v with
  | top =>
    have hu : x.toModel.unpack = .infinity .positive := hx
    cases w with
    | top =>
      have hv : y.toModel.unpack = .infinity .positive := hy
      rw [hu, hv, compare_eq_iff_eq.2 rfl]
      rfl
    | coe q =>
      rw [compare_gt_iff_gt.2 (WithTop.coe_lt_top q), hu]
      rcases Stands.digits hy with ⟨s, hv, _⟩ | ⟨m, e, hm, hv, _⟩ <;> rw [hv] <;> rfl
  | coe p =>
    cases w with
    | top =>
      have hv : y.toModel.unpack = .infinity .positive := hy
      rw [compare_lt_iff_lt.2 (WithTop.coe_lt_top p), hv]
      rcases Stands.digits hx with ⟨s, hu, _⟩ | ⟨m, e, hm, hu, _⟩ <;> rw [hu] <;> rfl
    | coe q =>
      rw [compare_coe]
      exact compare_eq hx hy

theorem le_iff (hx : Size x v) (hy : Size y w) : x ≤ y ↔ v ≤ w := by
  have hle : x ≤ y ↔ UnpackedFloat.le x.toModel.unpack y.toModel.unpack = true :=
    decide_eq_true_iff
  rw [hle, UnpackedFloat.le, compare_eq_of_size hx hy, ← compare_le_iff_le]
  cases compare v w <;> simp [Ordering.isLE]

theorem lt_iff (hx : Size x v) (hy : Size y w) : x < y ↔ v < w := by
  have hlt : x < y ↔ UnpackedFloat.lt x.toModel.unpack y.toModel.unpack = true :=
    decide_eq_true_iff
  rw [hlt, UnpackedFloat.lt, compare_eq_of_size hx hy, ← compare_lt_iff_lt]
  simp

theorem beq_iff (hx : Size x v) (hy : Size y w) : (x == y) = true ↔ v = w := by
  change (UnpackedFloat.compare x.toModel.unpack y.toModel.unpack == some .eq) = true ↔ v = w
  rw [compare_eq_of_size hx hy, ← compare_eq_iff_eq]
  simp

/-- What compares as zero or more is a value or the infinity above all values. -/
theorem exists_size_of_nonneg (h : 0.0 ≤ x) : ∃ v, Size x v := by
  have hle : UnpackedFloat.le (0.0 : Float).toModel.unpack x.toModel.unpack = true := decide_eq_true_iff.1 h
  cases hx : x.toModel.unpack with
  | notANumber => rw [hx] at hle; cases hle
  | infinity s =>
    cases s with
    | positive => exact ⟨⊤, hx⟩
    | negative => rw [hx] at hle; cases hle
  | zero s => exact ⟨(0 : ℚ), by unfold Size Stands; rw [hx]; exact .zero s⟩
  | finite s m e hm =>
    cases s with
    | positive => exact ⟨(m * 2 ^ e : ℚ), by unfold Size Stands; rw [hx]; exact .finite m e hm⟩
    | negative => rw [hx] at hle; cases hle

end Conveyor.Binary64
