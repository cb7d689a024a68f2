-- SUMMARY: Products of values: numbers multiply, texts and lists repeat, recipe calls gain copies.
import Conveyor.Number.Checked

/-!
# Products of values

A recipe call is scaled by multiplying it with an integer on either side. A factor of another kind,
truth values among them, is not taken. The multiplier of a call is itself a value, so the product is
defined for all of them.
-/

namespace Conveyor.Value

/-- The least number that counts no copies, one above the greatest that does. -/
def countLimit : Int := 0x8000000000000000

/-- More items than this do not fit the memory. -/
def itemLimit : Int := 0x100000000

/-- So many copies of some items in a row. A count has to be in the range of counts, and `beyond` says
what happens when the number of items is not. -/
def repeated {α : Type} (beyond : Fault) (n : Int) (xs : List α) : Except Fault (List α) :=
  if n < -countLimit ∨ countLimit ≤ n then .error .overflow
  else if n ≤ 0 ∨ xs.isEmpty then .ok []
  else if countLimit ≤ n * xs.length then .error beyond
  else if itemLimit < n * xs.length then .error .tooLarge
  else .ok (List.replicate n.toNat xs).flatten

/-- So many copies of a value. -/
def scaleBy (n : Int) : Value → Except Fault Value
  | .int m => .ok (.int (m * n))
  | .bool b => .ok (.int (if b then n else 0))
  | .real x => do
    let y ← toDouble n
    return .real (x * y)
  | .text s => (repeated .overflow n s.toList).map (.text <| String.ofList ·)
  | .list xs => (repeated .tooLarge n xs).map .list
  | .call recipe args mult => do
    let mult ← scaleBy n mult
    return .call recipe args mult
  | _ => .error .unsupported

/-- The value repeats when it is multiplied with a truth value. -/
def isSequence : Value → Bool
  | .text _ | .list _ => true
  | _ => false

/-- The product of two values. -/
def mul (x y : Value) : Except Fault Value :=
  match x.number?, y.number? with
  | some a, some b => (a.mul b).map ofNumber
  | some a, Option.none => factor x a y
  | Option.none, some b => factor y b x
  | Option.none, Option.none => .error .unsupported
where
  /-- Multiply `v` with the number `n`, which was written as `shape`. -/
  factor (shape : Value) (n : Number) (v : Value) : Except Fault Value :=
    match shape, n with
    | .int _, .whole k => v.scaleBy k
    | .bool _, .whole k => if v.isSequence then v.scaleBy k else .error .unsupported
    | _, _ => .error .unsupported

/-- A recipe call at so many times its parallelism. -/
def times (call factor : Value) : Except Fault Value :=
  match call with
  | .call recipe args mult => do
    let mult ← mult.mul factor
    return .call recipe args mult
  | _ => .error .noProperty

/-- A recipe call whose arguments are the items of a value. -/
def ofCall (recipe args mult : Value) : Except Fault Value :=
  match args.items? with
  | some items => .ok (.call recipe items mult)
  | Option.none => .error .unsupported

end Conveyor.Value
