-- SUMMARY: Numbers that are integers or doubles, compared as exact values.
import Conveyor.Number.Decimal

/-!
# Numbers

A recipe cycles every so many whole ticks. Scaling its rate by an efficiency stretches the base, and
from then on it is a double. The two forms are compared as the exact values that they stand for.
-/

namespace Conveyor

/-- An integer or a double. -/
inductive Number
  | whole (n : Int)
  | real (x : Float)
deriving DecidableEq

namespace Number

instance : Inhabited Number := ⟨.whole 0⟩

/-- Above zero, or not a number. -/
def IsPositive : Number → Prop
  | .whole n => 0 < n
  | .real x => ¬ x ≤ 0.0

instance : DecidablePred IsPositive
  | .whole n => inferInstanceAs (Decidable (0 < n))
  | .real x => inferInstanceAs (Decidable (¬ x ≤ 0.0))

/-- Order of two numbers; a NaN is not comparable. -/
def order : Number → Number → Option Ordering
  | .whole m, .whole n => some (compare m n)
  | .whole m, .real y => Binary64.compareInt m y
  | .real x, .whole n => (Binary64.compareInt n x).map Ordering.swap
  | .real x, .real y =>
    if x < y then some .lt else if y < x then some .gt else if x == y then some .eq else none

/-- The two are the same value. -/
def same (a b : Number) : Bool := a.order b = some .eq

/-- The integer that the number equals, if it is one. -/
def whole? : Number → Option Int
  | .whole n => some n
  | .real x => Binary64.whole? x

end Number

end Conveyor
