-- SUMMARY: Decimal digits of exact values, the shortest digits that read back as a double, and their layouts.
import Conveyor.Number.Binary64

/-!
# Decimal text

A figure is printed in two steps. First its digits are chosen: a fixed count of significant digits
(`Digits.ofFraction`), the fewest digits that read back as the same double (`Digits.shortest`), or a
fixed count of places (`fixed`). Then a `Layout` decides where the point goes and when an exponent
is written. One rounding rule is behind all of them: to the nearest integer, and from a tie to the
even neighbour.
-/

open Float.Model (UnpackedFloat)

namespace Conveyor

/-- The integer nearest to `num / den`; a tie goes to the even neighbour. -/
def roundDiv (num den : Nat) : Nat :=
  let q := num / den
  match compare (2 * (num % den)) den with
  | .lt => q
  | .eq => q + q % 2
  | .gt => q + 1

namespace Decimal

/-! ## Digits -/

/-- The number `coefficient * 10 ^ (exponent + 1 - count)`, where `count` is the number of digits of
the coefficient: `exponent` is the power of ten of the first digit. -/
structure Digits where
  coefficient : Nat
  exponent : Int
deriving Repr, DecidableEq

/-- How many decimal digits a number is written with. -/
def digitCount (n : Nat) : Nat := (Nat.toDigits 10 n).length

/-- `num / den` times ten to the power `shift`, as a numerator and a denominator. -/
def scale (num den : Nat) (shift : Int) : Nat × Nat :=
  (num * Nat.pow 10 shift.toNat, den * Nat.pow 10 (-shift).toNat)

/-- The power of ten of the first digit of `num / den`, both positive. -/
def leadingExponent (num den : Nat) : Int :=
  let guess : Int := digitCount num - digitCount den
  let (n, d) := scale num den (-guess)
  if d ≤ n then guess else guess - 1

/-- The first `count` digits of `num / den`, both positive, the last one rounded. -/
def Digits.ofFraction (count num den : Nat) : Digits :=
  let e := leadingExponent num den
  let (n, d) := scale num den (count - 1 - e)
  let c := roundDiv n d
  if c < Nat.pow 10 count then ⟨c, e⟩ else ⟨c / 10, e + 1⟩

/-- The same value without the zeros that end its coefficient. -/
def Digits.trim (x : Digits) : List Char :=
  let ds := (Nat.toDigits 10 x.coefficient).reverse.dropWhile (· = '0')
  if ds.isEmpty then ['0'] else ds.reverse

/-! ## The shortest digits that read back -/

/-- The reals that round to one positive double, in units of a quarter of its last place. The ends
belong to the interval exactly when the mantissa is even. -/
structure ReadBack where
  low : Nat
  value : Nat
  high : Nat
  closed : Bool
  unit : Int
deriving Repr

/-- Below a power of two the neighbours are twice as dense, down to the least exponent. -/
def ReadBack.of (m : Nat) (e : Int) : ReadBack where
  low := if m = Nat.pow 2 52 ∧ -1074 < e then 4 * m - 1 else 4 * m - 2
  value := 4 * m
  high := 4 * m + 2
  closed := m % 2 = 0
  unit := e - 2

/-- The candidate `c * 10 ^ k` reads back as the double. -/
def ReadBack.contains (r : ReadBack) (c : Nat) (k : Int) : Bool :=
  let ten := Nat.pow 10 k.toNat * Nat.pow 2 (-r.unit).toNat * c
  let two := Nat.pow 10 (-k).toNat * Nat.pow 2 r.unit.toNat
  if r.closed then two * r.low ≤ ten && ten ≤ two * r.high
  else two * r.low < ten && ten < two * r.high

/-- Of the two neighbours of the value among the numbers of `count` digits, the nearer one that
reads back. -/
def ReadBack.digits? (r : ReadBack) (count : Nat) : Option Digits :=
  let num := r.value * Nat.pow 2 r.unit.toNat
  let den := Nat.pow 2 (-r.unit).toNat
  let e := leadingExponent num den
  let k := e + 1 - count
  let (n, d) := scale num den (-k)
  let below := n / d
  let order := if roundDiv n d = below then [below, below + 1] else [below + 1, below]
  (order.find? (r.contains · k)).map fun c =>
    if c < Nat.pow 10 count then ⟨c, e⟩ else ⟨c / 10, e + 1⟩

/-- The fewest digits that read back as the positive double `m * 2 ^ e`; seventeen always do. -/
def Digits.shortest (m : Nat) (e : Int) : Digits :=
  let r := ReadBack.of m e
  ((List.range' 1 17).findSome? r.digits?).getD
    (Digits.ofFraction 17 (m * Nat.pow 2 e.toNat) (Nat.pow 2 (-e).toNat))

/-! ## Layout -/

/-- Where digits go: the exponents that are written positionally, and whether a whole number keeps
a `.0`. All other exponents are written after an `e`, with a sign and at least two digits. -/
structure Layout where
  least : Int
  greatest : Int
  keepsPoint : Bool

/-- Digits after the point, or nothing when there are none. -/
def pointed (ds : List Char) : List Char :=
  if ds.isEmpty then [] else '.' :: ds

/-- An exponent: a sign and at least two digits. -/
def exponentText (e : Int) : List Char :=
  let ds := Nat.toDigits 10 e.natAbs
  'e' :: (if e < 0 then '-' else '+') :: (if ds.length < 2 then '0' :: ds else ds)

namespace Layout

/-- Text of a positive number. -/
def magnitude (l : Layout) (x : Digits) : List Char :=
  let ds := x.trim
  let e := x.exponent
  if l.least ≤ e ∧ e ≤ l.greatest then
    if e < 0 then '0' :: '.' :: (List.replicate (-e - 1).toNat '0' ++ ds)
    else
      let whole := (ds ++ List.replicate (e.toNat + 1 - ds.length) '0').take (e.toNat + 1)
      let rest := ds.drop (e.toNat + 1)
      whole ++ pointed (if rest.isEmpty && l.keepsPoint then ['0'] else rest)
  else ds.take 1 ++ pointed (ds.drop 1) ++ exponentText e

/-- Text of zero. -/
def zero (l : Layout) : List Char :=
  if l.keepsPoint then ['0', '.', '0'] else ['0']

/-- Text of a double whose digits are chosen by `choose`. -/
def render (l : Layout) (choose : Nat → Int → Digits) (x : Float) : String :=
  match x.toModel.unpack with
  | .notANumber => "nan"
  | .infinity s => signed s "inf".toList
  | .zero s => signed s l.zero
  | .finite s m e _ => signed s (l.magnitude (choose m e))
where
  signed : UnpackedFloat.Sign → List Char → String
    | .negative, cs => String.ofList ('-' :: cs)
    | .positive, cs => String.ofList cs

end Layout

/-- A double is shown by the fewest digits that read back, positionally from 0.0001 up to below
10^16, and always with a point or an exponent. -/
def shown (x : Float) : String :=
  Layout.render ⟨-4, 15, true⟩ Digits.shortest x

/-- A figure in a report has six significant digits, positionally from 0.0001 up to below a million,
and no zeros after the last digit that counts. -/
def figure (x : Float) : String :=
  Layout.render ⟨-4, 5, false⟩
    (fun m e => Digits.ofFraction 6 (m * Nat.pow 2 e.toNat) (Nat.pow 2 (-e).toNat)) x

/-! ## Fixed places -/

/-- A double with a fixed count of places after the point, the last one rounded. -/
def fixed (places : Nat) (x : Float) : String :=
  match x.toModel.unpack with
  | .notANumber => "nan"
  | .infinity s => Layout.render.signed s "inf".toList
  | .zero s => Layout.render.signed s (digits 0)
  | .finite s m e _ =>
    let n := roundDiv (m * Nat.pow 2 e.toNat * Nat.pow 10 places) (Nat.pow 2 (-e).toNat)
    Layout.render.signed s (digits n)
where
  digits (n : Nat) : List Char :=
    let ds := Nat.toDigits 10 n
    let ds := List.replicate (places + 1 - ds.length) '0' ++ ds
    ds.take (ds.length - places) ++ pointed (ds.drop (ds.length - places))

/-- A share of one as a whole percentage. -/
def percent (x : Float) : String :=
  fixed 0 (x * 100.0) ++ "%"

end Decimal

end Conveyor
