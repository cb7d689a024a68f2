-- SUMMARY: Arithmetic on numbers that says why it has no result.
import Conveyor.Fault

/-!
# Checked arithmetic

Integers meet doubles here. An integer is rounded to a double first, which overflows if no finite
double is near; a quotient of two integers is rounded once; a division by zero has no result.
-/

namespace Conveyor

/-! ## Doubles -/

/-- The double nearest to an integer. -/
def toDouble (n : Int) : Except Fault Float :=
  match Binary64.ofInt? n with
  | some x => .ok x
  | none => .error .overflow

/-- The double nearest to the quotient of two integers. -/
def divideInts (a b : Int) : Except Fault Float :=
  if b = 0 then .error .divisionByZero
  else
    match Binary64.quotient? a b with
    | some x => .ok x
    | none => .error .overflow

/-- The quotient of two doubles. -/
def divideDoubles (x y : Float) : Except Fault Float :=
  if y == 0.0 then .error .divisionByZero else .ok (x / y)

/-- The exact value of a double that is to become an integer. -/
def finiteFraction (x : Float) : Except Fault Binary64.Fraction :=
  match Binary64.fraction? x with
  | some r => .ok r
  | none => if x.isNaN then .error .notANumber else .error .overflow

/-- The least integer that is not below a double. -/
def ceiling (x : Float) : Except Fault Int :=
  (finiteFraction x).map Binary64.Fraction.ceil

/-! ## Numbers -/

namespace Number

/-- A number as a double. -/
def double : Number → Except Fault Float
  | .whole n => toDouble n
  | .real x => .ok x

/-- A number without what follows its point. -/
def truncate : Number → Except Fault Int
  | .whole n => .ok n
  | .real x => (finiteFraction x).map Binary64.Fraction.truncate

/-- The integer that the number equals, if it is one; an integer has to be in the range of doubles. -/
def integer? (a : Number) : Except Fault (Option Int) := do
  let _ ← a.double
  return a.whole?

def add : Number → Number → Except Fault Number
  | .whole m, .whole n => .ok (.whole (m + n))
  | a, b => do
    let x ← a.double
    let y ← b.double
    return .real (x + y)

def mul : Number → Number → Except Fault Number
  | .whole m, .whole n => .ok (.whole (m * n))
  | a, b => do
    let x ← a.double
    let y ← b.double
    return .real (x * y)

def div : Number → Number → Except Fault Float
  | .whole m, .whole n => divideInts m n
  | a, b => do
    let x ← a.double
    let y ← b.double
    divideDoubles x y

end Number

end Conveyor
