-- SUMMARY: Integers and quotients that are not negative become the zero without a sign, if they become zero at all.
import Conveyor.Proofs.Rate.Shortage

/-!
# Signs of zeros

Two doubles have the value zero, one of them with a sign. They compare as equal, but they are not the same
double. Rounding keeps the sign, so of figures that are not negative no quotient is the zero with a sign,
however small it gets.
-/

open Float.Model (Format UnpackedFloat)
open Float.Model.UnpackedFloat

namespace Conveyor

namespace Binary64

variable {x y : Float} {v : WithTop ℚ} {p q : ℚ}

/-- If the value of the double is zero, it has no sign. -/
def Unsigned (x : Float) : Prop := Stands x 0 → x = 0.0

theorem unsigned_of_isInfinite (h : IsInfinite x) : Unsigned x := fun hx => absurd h hx.not_isInfinite

theorem unsigned_pack {u : UnpackedFloat} (hu : Holds u q) (hc : IsCanonical u) (hsign : u ≠ .zero .negative) :
    Unsigned (.ofModel (.pack u)) := by
  intro hzero
  cases hu with
  | zero s =>
    cases s with
    | positive => rfl
    | negative => exact absurd rfl hsign
  | finite m e hm =>
    cases le_or_gt e 971 with
    | inl he =>
      have hpos : (0 : ℚ) < m * 2 ^ e := by positivity
      unfold Stands at hzero
      rw [unpack_pack_finite hm hc he] at hzero
      exact absurd (hzero.unique (.finite m e hm)) hpos.ne
    | inr he => exact absurd (unpack_pack_large hm (by omega)) hzero.not_isInfinite

theorem roundWithAccuracy_ne_zero_negative (m : Nat) (e : Int) (acc : Accuracy) :
    roundWithAccuracy Format.binary64 .positive m e acc ≠ .zero .negative := by
  unfold roundWithAccuracy
  dsimp only
  split <;> nofun

theorem unsigned_div_finite {m₁ m₂ : Nat} (h₁ : 0 < m₁) (h₂ : 0 < m₂) (e₁ e₂ : Int) :
    Unsigned (.ofModel (.pack (div Format.binary64 (.finite .positive m₁ e₁ h₁) (.finite .positive m₂ e₂ h₂)))) := by
  obtain ⟨m, e, acc, r, hcore, hreads, htarget, _⟩ := divCore_reads h₁ h₂ e₁ e₂
  obtain ⟨w, hw, hc, _⟩ := roundWithAccuracy_near hreads htarget
  have hdiv : div Format.binary64 (.finite .positive m₁ e₁ h₁) (.finite .positive m₂ e₂ h₂) =
      roundWithAccuracy Format.binary64 .positive m e acc := by
    simp only [div, hcore]
    rfl
  rw [hdiv]
  exact unsigned_pack hw hc (roundWithAccuracy_ne_zero_negative m e acc)

theorem zero_div_stands (hy : Stands y q) (hq : 0 < q) : 0.0 / y = 0.0 := by
  obtain ⟨_, _, rfl⟩ | ⟨m, e, hm, hv, _⟩ := hy.digits
  · exact absurd hq (lt_irrefl 0)
  · change Float.ofModel (.pack (div Format.binary64 (0.0 : Float).toModel.unpack y.toModel.unpack)) = 0.0
    rw [hv]
    rfl

theorem zero_div_isInfinite (hy : IsInfinite y) : 0.0 / y = 0.0 := by
  change Float.ofModel (.pack (div Format.binary64 (0.0 : Float).toModel.unpack y.toModel.unpack)) = 0.0
  rw [hy]
  rfl

theorem Unsigned.div_stands (h : Unsigned x) (hx : Size x v) (hy : Stands y q) (hq : 0 < q) : Unsigned (x / y) := by
  cases v with
  | top => exact unsigned_of_isInfinite (IsInfinite.div_stands hx hy hq)
  | coe p =>
    obtain ⟨_, _, rfl⟩ | ⟨m₁, e₁, hm₁, hu, _⟩ := Stands.digits hx
    · rw [h hx]
      exact fun _ => zero_div_stands hy hq
    · obtain ⟨_, _, rfl⟩ | ⟨m₂, e₂, hm₂, hv, _⟩ := hy.digits
      · exact absurd hq (lt_irrefl 0)
      · change Unsigned (.ofModel (.pack (div Format.binary64 x.toModel.unpack y.toModel.unpack)))
        rw [hu, hv]
        exact unsigned_div_finite hm₁ hm₂ e₁ e₂

theorem Unsigned.div_isInfinite (h : Unsigned x) (hx : Stands x p) (hy : IsInfinite y) : Unsigned (x / y) := by
  obtain ⟨_, _, rfl⟩ | ⟨m, e, hm, hu, _⟩ := hx.digits
  · rw [h hx]
    exact fun _ => zero_div_isInfinite hy
  · intro _
    change Float.ofModel (.pack (div Format.binary64 x.toModel.unpack y.toModel.unpack)) = 0.0
    rw [hu, hy]
    rfl

/-! ## Integers -/

theorem unsigned_of_finite? (h : Unsigned x) (hy : finite? x = some y) : Unsigned y := by
  unfold finite? at hy
  split at hy
  · cases hy
  · exact Option.some.inj hy ▸ h

theorem unsigned_ofInt? {n : Int} (hn : 0 ≤ n) (h : ofInt? n = some x) : Unsigned x := by
  obtain ⟨k, rfl⟩ := Int.eq_ofNat_of_zero_le hn
  refine unsigned_of_finite? ?_ h
  obtain ⟨w, hw, hc, _⟩ := normalize_near k 0 .positive
  refine unsigned_pack hw hc ?_
  change UnpackedFloat.normalize Format.binary64 k 0 .positive ≠ _
  unfold UnpackedFloat.normalize
  split
  next hlt => exact absurd (Int.compare_eq_lt.1 hlt) (by omega)
  · nofun
  · exact roundWithAccuracy_ne_zero_negative _ _ _

theorem unsigned_quotient? {a b : Int} (ha : 0 ≤ a) (hb : 0 < b) (h : quotient? a b = some x) : Unsigned x := by
  obtain ⟨k, rfl⟩ := Int.eq_ofNat_of_zero_le ha
  obtain ⟨l, rfl⟩ := Int.eq_succ_of_zero_lt hb
  refine unsigned_of_finite? ?_ h
  cases k with
  | zero => exact fun _ => rfl
  | succ k => exact unsigned_div_finite k.succ_pos l.succ_pos 0 0

end Binary64

open Binary64

namespace Rate

variable {r s : Rate} {x z : Float} {n : Int}

/-- No throughput is the zero with a sign. -/
theorem unsigned_throughput (hr : r.ticks.IsBase) (h : r.throughput = .ok x) : Unsigned x := by
  unfold throughput at h
  cases hticks : r.ticks with
  | whole n =>
    rw [hticks] at h
    change divideInts r.amount n = .ok x at h
    unfold divideInts at h
    split at h
    · cases h
    split at h
    next hquotient =>
      obtain rfl := Except.ok.inj h
      exact unsigned_quotient? r.amount_nonneg (whole_pos hticks) hquotient
    · cases h
  | real t =>
    rw [hticks] at h
    obtain ⟨y, hy, h⟩ := Result.bind_eq_ok.1 h
    obtain ⟨_, ht, h⟩ := Result.bind_eq_ok.1 h
    obtain rfl := Except.ok.inj ht
    obtain ⟨rfl, -⟩ := divideDoubles_eq_ok h
    obtain ⟨a, ha, _⟩ := toDouble_within r.amount_nonneg hy
    have hsign : Unsigned y := by
      change toDouble r.amount = .ok y at hy
      unfold toDouble at hy
      split at hy
      next hint =>
        obtain rfl := Except.ok.inj hy
        exact unsigned_ofInt? r.amount_nonneg hint
      · cases hy
    rcases flow_of_real hticks hr with ⟨τ, hτ, hpos, _⟩ | ⟨hinfinite, _⟩
    · exact hsign.div_stands ha.size hτ hpos
    · exact hsign.div_isInfinite ha hinfinite

/-- No ratio of rates is the zero with a sign. -/
theorem unsigned_ratio (hr : r.Ordinary) (hs : s.ticks = .whole n) (h : r.ratio s = .ok z) : Unsigned z := by
  obtain ⟨x, y, hx, hy, rfl, hzero⟩ := ratio_eq_ok h
  obtain ⟨Y, hY, _⟩ := throughput_near hs hy
  have hpos := pos_of_beq_zero hY hzero
  have hsign := unsigned_throughput hr.base hx
  rcases throughput_within hr hx with ⟨X, hX, _⟩ | ⟨hinfinite, _⟩
  · exact hsign.div_stands hX.size hY hpos
  · exact hsign.div_stands hinfinite.size hY hpos

/-- Nothing makes up nothing of any rate. -/
theorem ratio_zero (hs : s.ticks = .whole n) (h : zero.ratio s = .ok z) : z = 0.0 := by
  obtain ⟨x, y, hx, hy, rfl, hzero⟩ := ratio_eq_ok h
  obtain ⟨Y, hY, _⟩ := throughput_near hs hy
  obtain rfl : 0.0 = x := Except.ok.inj hx
  exact zero_div_stands hY (pos_of_beq_zero hY hzero)

end Rate

end Conveyor
