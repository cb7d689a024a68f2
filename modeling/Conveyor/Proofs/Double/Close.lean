-- SUMMARY: Away from the ends of the range a rounding costs half a unit in the last place, and no more.
import Conveyor.Proofs.Double.Within

/-!
# Half a unit in the last place

`Within` is generous, so that it holds down to values that are all but nothing. Where a single copy may
hang on a rounding, generous is too much. A value that is far from both ends of the range of the doubles is
rounded to half a unit in the last place, and after a few such roundings it still is within a few of them.
-/

namespace Conveyor.Binary64

/-! ## Values far from the ends -/

/-- The value is no less than `1 / 2 ^ b` and no more than `2 ^ b`. -/
structure Mid (b : Nat) (q : ℚ) : Prop where
  low : 1 ≤ q * 2 ^ b
  high : q ≤ 2 ^ b

namespace Mid

variable {b d : Nat} {q r : ℚ}

theorem pos (hq : Mid b q) : 0 < q := pos_of_mul_pos_left (one_pos.trans_le hq.low) (pow_pos two_pos b).le

theorem le_room (hq : Mid b q) (hb : b ≤ 1000) : q ≤ room := by
  rw [room]
  exact hq.high.trans (pow_le_pow_right₀ one_le_two hb)

theorem mono (hq : Mid b q) (hbd : b ≤ d) : Mid d q where
  low := hq.low.trans (mul_le_mul_of_nonneg_left (pow_le_pow_right₀ one_le_two hbd) hq.pos.le)
  high := hq.high.trans (pow_le_pow_right₀ one_le_two hbd)

theorem div (hq : Mid b q) (hr : Mid d r) : Mid (b + d) (q / r) where
  low := by
    rw [div_mul_eq_mul_div, one_le_div₀ hr.pos, pow_add, ← mul_assoc]
    exact hr.high.trans (le_mul_of_one_le_left (pow_pos two_pos d).le hq.low)
  high := by
    rw [div_le_iff₀ hr.pos, pow_add, mul_assoc, mul_comm (2 ^ d)]
    exact hq.high.trans (le_mul_of_one_le_right (pow_pos two_pos b).le hr.low)

theorem mul (hq : Mid b q) (hr : Mid d r) : Mid (b + d) (q * r) where
  low := by
    rw [pow_add, mul_mul_mul_comm]
    exact one_le_mul_of_one_le_of_one_le hq.low hr.low
  high := by
    rw [pow_add]
    exact mul_le_mul hq.high hr.high hr.pos.le (pow_pos two_pos b).le

/-- A positive integer that a double holds to its last digit. -/
theorem of_int {n : Int} (hpos : 1 ≤ n) (hlt : n < 2 ^ 53) : Mid 53 n where
  low := by
    have hone : (1 : ℚ) ≤ n := by exact_mod_cast hpos
    exact one_le_mul_of_one_le_of_one_le hone (one_le_pow₀ one_le_two)
  high := by exact_mod_cast hlt.le

end Mid

/-! ## A few roundings -/

/-- No rounding of a value far from the ends changes it by more than this factor. -/
def nudge : ℚ := 2 ^ 53 / (2 ^ 53 - 1)

theorem nudge_pos : 0 < nudge := by norm_num [nudge]

theorem one_lt_nudge : 1 < nudge := by norm_num [nudge]

theorem one_le_nudge : 1 ≤ nudge := one_lt_nudge.le

/-- The two values differ by no more than `k` roundings to half a unit in the last place. -/
abbrev Close (k : Nat) (w q : ℚ) : Prop := Apart nudge k w q

theorem nudge_pow_le {k : Nat} (hk : k ≤ 6) : nudge ^ k ≤ 1 + 1 / 2 ^ 50 :=
  (pow_le_pow_right₀ one_le_nudge hk).trans (by norm_num [nudge])

theorem nudge_pow_le_two {k : Nat} (hk : k ≤ 6) : nudge ^ k ≤ 2 := (nudge_pow_le hk).trans (by norm_num)

/-- A few roundings bring a value no nearer to the ends than twice. -/
theorem Apart.mid {b k : Nat} {w q : ℚ} (h : Close k w q) (hk : k ≤ 6) (hq : Mid b q) : Mid (b + 1) w where
  low := by
    have hpos := Apart.pos nudge_pos h hq.pos
    calc 1 ≤ q * 2 ^ b := hq.low
      _ ≤ w * nudge ^ k * 2 ^ b := mul_le_mul_of_nonneg_right h.2 (pow_pos two_pos b).le
      _ ≤ w * 2 * 2 ^ b := by
        refine mul_le_mul_of_nonneg_right ?_ (pow_pos two_pos b).le
        exact mul_le_mul_of_nonneg_left (nudge_pow_le_two hk) hpos.le
      _ = w * 2 ^ (b + 1) := by ring
  high := by
    calc w ≤ q * nudge ^ k := h.1
      _ ≤ 2 ^ b * 2 := mul_le_mul hq.high (nudge_pow_le_two hk) (pow_pos nudge_pos k).le (pow_pos two_pos b).le
      _ = 2 ^ (b + 1) := (pow_succ 2 b).symm

variable {x y : Float} {X Y q : ℚ} {b : Nat}

/-- Within the room a value of the middle range is rounded to half a unit in the last place. -/
theorem Rounded.close (h : Rounded x q) (hq : Mid b q) (hb : b ≤ 1000) : ∃ w, Stands x w ∧ Close 1 w q := by
  have hwide := hq.mono hb
  obtain ⟨_, w, hw, hnear⟩ := finite?_of_rounded h (hq.le_room hb)
  have hgrain : grain ≤ q / 2 ^ 53 := by
    have hscale : grain * 2 ^ 53 * 2 ^ 1000 ≤ 1 := by
      rw [grain, mul_assoc, ← pow_add, ← zpow_natCast, ← zpow_add₀ two_ne_zero]
      exact zpow_le_one_of_nonpos₀ one_le_two (by decide)
    rw [le_div_iff₀ (by norm_num)]
    exact le_of_mul_le_mul_right (hscale.trans hwide.low) (pow_pos two_pos 1000)
  have herror := hnear.error
  rw [max_eq_left hgrain] at herror
  obtain ⟨hlow, hhigh⟩ := abs_le.1 herror
  have hfactor : nudge * (1 - 1 / 2 ^ 53) = 1 := by norm_num [nudge]
  refine ⟨w, hw, ?_, ?_⟩
  · calc w ≤ q * (1 + 1 / 2 ^ 53) := by linarith
      _ ≤ q * nudge ^ 1 := mul_le_mul_of_nonneg_left (by norm_num [nudge]) hq.pos.le
  · calc q = q * (1 - 1 / 2 ^ 53) * nudge := by rw [mul_assoc, mul_comm _ nudge, hfactor, mul_one]
      _ ≤ w * nudge := mul_le_mul_of_nonneg_right (by linarith) nudge_pos.le
      _ = w * nudge ^ 1 := by rw [pow_one]

/-- A quotient costs one rounding more. -/
theorem exists_div_close {k : Nat} (hx : Stands x X) (hy : Stands y Y) (hpos : 0 < Y) (h : Close k (X / Y) q)
    (hk : k ≤ 6) (hq : Mid b q) (hb : b + 1 ≤ 1000) : ∃ w, Stands (x / y) w ∧ Close (1 + k) w q := by
  obtain ⟨w, hw, hclose⟩ := (rounded_div hx hy hpos).close (h.mid hk hq) hb
  exact ⟨w, hw, hclose.trans nudge_pos h⟩

end Conveyor.Binary64
