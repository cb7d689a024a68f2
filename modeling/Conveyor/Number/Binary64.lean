-- SUMMARY: Exact passage between integers and doubles: rounding in, reading out, comparing without loss.

/-!
# Doubles and integers

A rate counts whole units but measures throughput in doubles, so every figure crosses between the
two. Going in, an integer or a quotient of integers is rounded once, to nearest with ties to even,
and a magnitude that rounds past the largest finite double has no double. Coming out, a finite
double is the exact fraction that it stands for.
-/

open Float.Model (UnpackedFloat Format)

namespace Conveyor.Binary64

/-! ## From integers to doubles -/

/-- An integer as a sign and a magnitude, not yet rounded. -/
def unpackInt : Int → UnpackedFloat
  | .ofNat 0 => .zero .positive
  | .ofNat (m + 1) => .finite .positive (m + 1) 0 m.succ_pos
  | .negSucc m => .finite .negative (m + 1) 0 m.succ_pos

/-- A double, unless it is beyond the finite range. -/
def finite? (x : Float) : Option Float :=
  if x.isInf then none else some x

/-- The double nearest to an integer. -/
def ofInt? (n : Int) : Option Float :=
  finite? (.ofModel (.ofInt n))

/-- The double nearest to the exact quotient of two integers, the second not zero. -/
def quotient? (a b : Int) : Option Float :=
  finite? (.ofModel (.pack (UnpackedFloat.div Format.binary64 (unpackInt a) (unpackInt b))))

/-! ## From doubles to integers -/

/-- A fraction with a positive denominator. -/
structure Fraction where
  num : Int
  den : Nat
  den_pos : 0 < den

namespace Fraction

/-- The least integer that is not below the fraction. -/
def ceil (r : Fraction) : Int := -((-r.num).fdiv r.den)

/-- The integer that is left when the digits after the point are dropped. -/
def truncate (r : Fraction) : Int := r.num.tdiv r.den

/-- The integer that the fraction equals, if it is one. -/
def whole? (r : Fraction) : Option Int :=
  if r.num % r.den = 0 then some (r.num / r.den) else none

theorem whole?_eq_some {r : Fraction} {n : Int} (h : r.whole? = some n) : r.num = n * r.den := by
  unfold whole? at h
  split at h
  · rename_i hdiv
    obtain rfl := Option.some.inj h
    exact (Int.ediv_mul_cancel (Int.dvd_of_emod_eq_zero hdiv)).symm
  · cases h

end Fraction

/-- The exact value of a finite double; an infinity and a NaN have none. -/
def fraction? (x : Float) : Option Fraction :=
  match x.toModel.unpack with
  | .zero _ => some ⟨0, 1, Nat.one_pos⟩
  | .finite sign m e _ =>
    if 0 ≤ e then some ⟨sign.apply (m * Nat.pow 2 e.toNat : Nat), 1, Nat.one_pos⟩
    else some ⟨sign.apply m, Nat.pow 2 (-e).toNat, Nat.two_pow_pos _⟩
  | .infinity _ => none
  | .notANumber => none

/-- The integer that a double equals, if it is one. -/
def whole? (x : Float) : Option Int :=
  (fraction? x).bind Fraction.whole?

/-- Order of an integer and a double as exact numbers; a NaN is not comparable. -/
def compareInt (n : Int) (x : Float) : Option Ordering :=
  match x.toModel.unpack with
  | .notANumber => none
  | .infinity .positive => some .lt
  | .infinity .negative => some .gt
  | _ => (fraction? x).map fun r => compare (n * r.den) r.num

end Conveyor.Binary64
