-- SUMMARY: Reading back the bits of a double: what was packed comes out, or an infinity if it was too large.
import Conveyor.Proofs.Double.Rounding

/-!
# Packing

A double is stored in a sign, eleven bits of exponent and 52 bits of mantissa. The leading digit of a
full mantissa is left out, so the exponent tells whether it is there.
-/

open Float.Model (Format UnpackedFloat)
open Float.Model.UnpackedFloat

namespace Conveyor.Binary64

/-! ## Fields -/

/-- A mantissa with its leading digit. -/
theorem toNat_cons_one (m : BitVec 52) : (1#1 ++ m).toNat = 2 ^ 52 + m.toNat := by
  rw [BitVec.toNat_append, ← Nat.shiftLeft_add_eq_or_of_lt m.isLt]
  rfl

/-- The datum that three fields stand for. -/
def ofFields (s : Sign) (e : BitVec 11) (m : BitVec 52) : UnpackedFloat :=
  if e = -1#11 then if m = 0#52 then .infinity s else .notANumber
  else if e = 0#11 then
    if h : m = 0#52 then .zero s
    else .finite s m.toNat (-1074) (Nat.pos_of_ne_zero fun hm => h (BitVec.eq_of_toNat_eq hm))
  else .finite s (2 ^ 52 + m.toNat) (e.toNat - 1075) (by omega)

theorem unpack_eq (b : BitVec 64) : unpack Format.binary64 b =
    ofFields (Sign.ofBitVec (@unpackSign Format.binary64 b)) (@unpackExponent Format.binary64 b)
      (@unpackMantissa Format.binary64 b) := by
  unfold unpack ofFields
  dsimp only
  split
  · rfl
  split
  next hzeros =>
    split
    · rfl
    · rw [hzeros]
      rfl
  next =>
    congr 1
    exact toNat_cons_one _

theorem unpack_pack (u : UnpackedFloat) :
    (Float.Model.pack u).unpack = unpack Format.binary64 (pack Format.binary64 u) := by
  simp [Float.Model.pack, Float.Model.unpack]

theorem unpack_packComponents (s : Sign) (e : BitVec 11) (m : BitVec 52) :
    unpack Format.binary64 (packComponents Format.binary64 s e m) = ofFields s e m := by
  refine (unpack_eq _).trans ?_
  rw [unpackMantissa_packComponents, unpackExponent_packComponents, unpackSign_packComponents,
    Sign.ofBitVec_toBitVec]

/-! ## What comes out -/

theorem unpack_pack_zero (s : Sign) : (Float.Model.pack (.zero s)).unpack = .zero s := by
  cases s <;> rfl

theorem unpack_pack_infinity (s : Sign) : (Float.Model.pack (.infinity s)).unpack = .infinity s := by
  cases s <;> rfl

theorem unpack_pack_large {s : Sign} {m : Nat} {e : Int} (h : 0 < m) (he : 972 ≤ e) :
    (Float.Model.pack (.finite s m e h)).unpack = .infinity s := by
  have hbias : 2 ^ 11 ≤ (e + 1023 + 52).toNat + 1 := by omega
  rw [← unpack_pack_infinity s, unpack_pack, unpack_pack]
  congr 1
  exact if_pos hbias

/-- A stored exponent that is neither all zeros nor all ones. -/
theorem stored_exponent {b : Nat} (hpos : 1 ≤ b) (hlt : b + 1 < 2 ^ 11) :
    (BitVec.ofNat 11 b).toNat = b ∧ BitVec.ofNat 11 b ≠ -1#11 ∧ BitVec.ofNat 11 b ≠ 0#11 := by
  have hb : (BitVec.ofNat 11 b).toNat = b := by
    rw [BitVec.toNat_ofNat, Nat.mod_eq_of_lt (by omega)]
  refine ⟨hb, fun h => ?_, fun h => ?_⟩
  · have hones : (BitVec.ofNat 11 b).toNat = 2047 := congrArg BitVec.toNat h
    omega
  · have hzero : (BitVec.ofNat 11 b).toNat = 0 := congrArg BitVec.toNat h
    omega

theorem unpack_pack_finite {s : Sign} {m : Nat} {e : Int} (h : 0 < m) (hc : Canonical m e)
    (he : e ≤ 971) : (Float.Model.pack (.finite s m e h)).unpack = .finite s m e h := by
  obtain ⟨hlt, hle, hfull⟩ := hc
  have hrange : ¬ 2 ^ 11 ≤ (e + 1023 + 52).toNat + 1 := by omega
  obtain ⟨hexponent, hones, hzeros⟩ :=
    stored_exponent (b := (e + 1023 + 52).toNat) (by omega) (by omega)
  rw [unpack_pack]
  change unpack Format.binary64 (if 2 ^ 11 ≤ (e + 1023 + 52).toNat + 1 then _
    else if m.log2 + 1 = 53 then packComponents Format.binary64 s
      (BitVec.ofNat 11 (e + 1023 + 52).toNat) (BitVec.ofNat 52 m)
    else packComponents Format.binary64 s 0#11 (BitVec.ofNat 52 m)) = _
  rw [if_neg hrange]
  cases Nat.lt_or_ge m (2 ^ 52) with
  | inl hshort =>
    have hlog : ¬ m.log2 + 1 = 53 := by
      have := (Nat.log2_lt h.ne').2 hshort
      omega
    have hmantissa : (BitVec.ofNat 52 m).toNat = m := by
      rw [BitVec.toNat_ofNat, Nat.mod_eq_of_lt hshort]
    have hne : BitVec.ofNat 52 m ≠ 0#52 := fun hm => by
      have hzero : (BitVec.ofNat 52 m).toNat = 0 := congrArg BitVec.toNat hm
      omega
    obtain rfl : e = -1074 := by omega
    rw [if_neg hlog, unpack_packComponents, ofFields, if_neg (by decide), if_pos rfl, dif_neg hne]
    congr 1
  | inr hfull =>
    have hlog : m.log2 + 1 = 53 := by
      have hlow := (Nat.le_log2 h.ne').2 hfull
      have hhigh := (Nat.log2_lt h.ne').2 hlt
      omega
    rw [if_pos hlog, unpack_packComponents, ofFields, if_neg hones, if_neg hzeros]
    congr 1
    · rw [BitVec.toNat_ofNat]
      omega
    · rw [hexponent]
      omega

/-- A finite double has the digits of a canonical datum, over an exponent in range. -/
theorem canonical_of_unpack {x : Float} {s : Sign} {m : Nat} {e : Int} {h : 0 < m}
    (hx : x.toModel.unpack = .finite s m e h) : Canonical m e ∧ e ≤ 971 := by
  unfold Float.Model.unpack at hx
  rw [unpack_eq] at hx
  generalize @unpackMantissa Format.binary64 _ = mantissa at hx
  generalize @unpackExponent Format.binary64 _ = exponent at hx
  have hm : mantissa.toNat < 2 ^ 52 := mantissa.isLt
  have he : exponent.toNat < 2 ^ 11 := exponent.isLt
  unfold ofFields at hx
  split at hx
  · split at hx <;> cases hx
  next hones =>
  split at hx
  · split at hx
    · cases hx
    · obtain ⟨-, rfl, rfl⟩ := UnpackedFloat.finite.inj hx
      exact ⟨⟨by omega, by omega, .inr rfl⟩, by omega⟩
  next hzeros =>
    have hpos : exponent.toNat ≠ 0 := fun he => hzeros (BitVec.eq_of_toNat_eq he)
    have hlt : exponent.toNat ≠ 2047 := fun he => hones (BitVec.eq_of_toNat_eq he)
    obtain ⟨-, rfl, rfl⟩ := UnpackedFloat.finite.inj hx
    exact ⟨⟨by omega, by omega, .inl (by omega)⟩, by omega⟩

end Conveyor.Binary64
