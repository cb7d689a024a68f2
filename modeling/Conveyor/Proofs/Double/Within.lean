-- SUMMARY: How far values drift over several roundings: each one costs at most one small factor.
import Conveyor.Proofs.Double.Order

/-!
# Drift

A rounded value that is not tiny differs from the exact one by a factor between `1 / slack` and
`slack`. The factors of successive roundings multiply, whatever sums, products and quotients stand
between them.
-/

namespace Conveyor.Binary64

/-! ## Values that differ by a few factors -/

/-- Neither value is above the other by more than `k` factors of `c`. -/
def Apart (c : ℚ) (k : Nat) (w q : ℚ) : Prop := w ≤ q * c ^ k ∧ q ≤ w * c ^ k

namespace Apart

variable {c : ℚ} {k l : Nat} {v w q r : ℚ}

theorem trans (hc : 0 < c) (h : Apart c k v w) (h' : Apart c l w q) : Apart c (k + l) v q := by
  constructor
  · calc v ≤ w * c ^ k := h.1
      _ ≤ q * c ^ l * c ^ k := mul_le_mul_of_nonneg_right h'.1 (pow_pos hc k).le
      _ = q * c ^ (k + l) := by rw [pow_add]; ring
  · calc q ≤ w * c ^ l := h'.2
      _ ≤ v * c ^ k * c ^ l := mul_le_mul_of_nonneg_right h.2 (pow_pos hc l).le
      _ = v * c ^ (k + l) := by rw [pow_add]; ring

theorem pos (hc : 0 < c) (h : Apart c k w q) (hq : 0 < q) : 0 < w :=
  pos_of_mul_pos_left (hq.trans_le h.2) (pow_pos hc k).le

theorem div (hc : 0 < c) (h : Apart c k v w) (h' : Apart c l q r) (hv : 0 ≤ v) (hw : 0 ≤ w) (hq : 0 < q)
    (hr : 0 < r) : Apart c (k + l) (v / q) (w / r) := by
  have hk := (pow_pos hc k).le
  constructor
  · rw [div_mul_eq_mul_div, div_le_div_iff₀ hq hr]
    calc v * r ≤ (w * c ^ k) * (q * c ^ l) := mul_le_mul h.1 h'.2 hr.le (mul_nonneg hw hk)
      _ = w * c ^ (k + l) * q := by rw [pow_add]; ring
  · rw [div_mul_eq_mul_div, div_le_div_iff₀ hr hq]
    calc w * q ≤ (v * c ^ k) * (r * c ^ l) := mul_le_mul h.2 h'.1 hq.le (mul_nonneg hv hk)
      _ = v * c ^ (k + l) * r := by rw [pow_add]; ring

end Apart

/-! ## Values that differ by a few roundings -/

/-- No rounding changes a value by more than this factor, unless the value is tiny. -/
def slack : ℚ := 1 + 1 / 2 ^ 48

/-- Values below this one may lose more than their last digit when they are rounded. -/
def tiny : ℚ := 2 ^ (-1026 : Int)

/-- The two values differ by no more than `k` roundings. -/
def Within (k : Nat) (w q : ℚ) : Prop := w ≤ q * slack ^ k ∧ q ≤ w * slack ^ k

theorem one_le_slack : 1 ≤ slack := by norm_num [slack]

theorem slack_pos : 0 < slack := one_pos.trans_le one_le_slack

theorem one_le_slack_pow (k : Nat) : 1 ≤ slack ^ k := one_le_pow₀ one_le_slack

theorem slack_pow_pos (k : Nat) : 0 < slack ^ k := pow_pos slack_pos k

theorem tiny_pos : 0 < tiny := zpow_pos two_pos _

theorem grain_eq : grain = tiny / 2 ^ 49 := by
  have hsplit : (-1026 : Int) = -1075 + 49 := rfl
  rw [tiny, grain, hsplit, zpow_add₀ two_ne_zero]
  field_simp

/-- Halving the least value that is not tiny leaves a value whose inverse is beyond all doubles. -/
theorem tiny_mul_limit : tiny * limit * 4 = 1 := by
  rw [tiny, limit, ← zpow_natCast, ← zpow_add₀ two_ne_zero]
  norm_num

namespace Within

variable {k l : Nat} {v w q r : ℚ}

theorem refl (hq : 0 ≤ q) : Within k q q :=
  ⟨le_mul_of_one_le_right hq (one_le_slack_pow k), le_mul_of_one_le_right hq (one_le_slack_pow k)⟩

theorem symm (h : Within k w q) : Within k q w := ⟨h.2, h.1⟩

theorem trans (h : Within k v w) (h' : Within l w q) : Within (k + l) v q := Apart.trans slack_pos h h'

theorem mono (h : Within k w q) (hkl : k ≤ l) (hw : 0 ≤ w) (hq : 0 ≤ q) : Within l w q := by
  have hpow : slack ^ k ≤ slack ^ l := pow_le_pow_right₀ one_le_slack hkl
  exact ⟨h.1.trans (mul_le_mul_of_nonneg_left hpow hq),
    h.2.trans (mul_le_mul_of_nonneg_left hpow hw)⟩

theorem add (h : Within k v w) (h' : Within k q r) : Within k (v + q) (w + r) := by
  constructor
  · rw [add_mul]
    exact add_le_add h.1 h'.1
  · rw [add_mul]
    exact add_le_add h.2 h'.2

theorem pos (h : Within k w q) (hq : 0 < q) : 0 < w := Apart.pos slack_pos h hq

theorem div (h : Within k v w) (h' : Within l q r) (hv : 0 ≤ v) (hw : 0 ≤ w) (hq : 0 < q)
    (hr : 0 < r) : Within (k + l) (v / q) (w / r) :=
  Apart.div slack_pos h h' hv hw hq hr

theorem mul_const (h : Within k w q) (hr : 0 ≤ r) : Within k (w * r) (q * r) := by
  constructor
  · rw [mul_right_comm]
    exact mul_le_mul_of_nonneg_right h.1 hr
  · rw [mul_right_comm]
    exact mul_le_mul_of_nonneg_right h.2 hr

theorem div_const (h : Within k w q) (hr : 0 ≤ r) : Within k (w / r) (q / r) := by
  rw [div_eq_mul_inv, div_eq_mul_inv]
  exact h.mul_const (inv_nonneg.2 hr)

theorem const_div (h : Within k w q) (hr : 0 ≤ r) (hw : 0 < w) (hq : 0 < q) :
    Within k (r / w) (r / q) := by
  have hdiv := (Within.refl hr : Within 0 r r).div h hr hr hw hq
  rwa [Nat.zero_add] at hdiv

end Within

/-! ## One rounding -/

/-- The value is nothing, or large enough to keep its digits when it is rounded. -/
def Regular (q : ℚ) : Prop := q = 0 ∨ tiny ≤ q

theorem slack_pow_le_two {k : Nat} (hk : k ≤ 16) : slack ^ k ≤ 2 :=
  (pow_le_pow_right₀ one_le_slack hk).trans (by norm_num [slack])

/-- After a few roundings of a value that is well above tiny, the next one still finds all digits. -/
theorem Within.regular {k : Nat} {w q : ℚ} (h : Within k w q) (hk : k ≤ 16) (hw : 0 ≤ w)
    (hq : q = 0 ∨ 4 * tiny ≤ q) : Regular w := by
  rcases hq with rfl | hq
  · rw [Within, zero_mul] at h
    exact .inl (le_antisymm h.1 hw)
  · refine .inr ?_
    have hdrift : q ≤ w * 2 := h.2.trans (mul_le_mul_of_nonneg_left (slack_pow_le_two hk) hw)
    linarith [tiny_pos]

variable {x : Float} {w q : ℚ}

theorem Near.within (h : Near w q) (hq : Regular q) : Within 1 w q := by
  rcases hq with hzero | hq
  · rw [h.eq_zero hzero, hzero]
    exact .refl (le_refl 0)
  have hpos : 0 < q := tiny_pos.trans_le hq
  have herror : |w - q| ≤ q / 2 ^ 49 := by
    refine h.error.trans (max_le (div_le_div_of_nonneg_left hpos.le (by norm_num) (by norm_num)) ?_)
    rw [grain_eq]
    exact div_le_div_of_nonneg_right hq (by norm_num)
  obtain ⟨hlow, hhigh⟩ := abs_le.1 herror
  constructor <;> rw [pow_one, slack] <;> linarith

theorem Near.le_of_le_tiny (h : Near w q) (hq : q ≤ tiny) : 2 * w ≤ 3 * tiny := by
  have hbound : max (q / 2 ^ 53) grain ≤ tiny / 2 := by
    have hpos := tiny_pos
    rw [grain_eq]
    refine max_le ?_ ?_ <;> linarith
  have := (abs_le.1 (h.error.trans hbound)).2
  linarith

/-- A rounded value that keeps its digits drifts by one rounding, or is beyond all doubles. -/
theorem Rounded.within (h : Rounded x q) (hq : Regular q) :
    (∃ w, Stands x w ∧ Within 1 w q) ∨ (IsInfinite x ∧ limit ≤ q * slack) := by
  cases h with
  | near stands near => exact .inl ⟨_, stands, near.within hq⟩
  | beyond infinite hle =>
    have hnonneg : 0 ≤ q := hq.elim (fun h => h.ge) fun h => tiny_pos.le.trans h
    refine .inr ⟨infinite, hle.trans (mul_le_mul_of_nonneg_left ?_ hnonneg)⟩
    norm_num [slack]

theorem tiny_le : 4 * tiny ≤ 1 := by
  have hlimit : 1 ≤ limit := one_le_pow₀ one_le_two
  have := tiny_mul_limit
  nlinarith [tiny_pos]

/-- An integer that has a double drifts by one rounding. -/
theorem ofInt?_within {n : Int} (hn : 0 ≤ n) (h : ofInt? n = some x) :
    ∃ w, Stands x w ∧ Within 1 w n := by
  obtain ⟨w, hw, hnear⟩ := ofInt?_near hn h
  refine ⟨w, hw, hnear.within ?_⟩
  rcases hn.eq_or_lt with rfl | hpos
  · exact .inl Int.cast_zero
  · have hone : (1 : ℚ) ≤ n := by exact_mod_cast hpos
    exact .inr (by linarith [tiny_le, tiny_pos])

end Conveyor.Binary64
