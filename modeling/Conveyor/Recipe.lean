-- SUMMARY: Recipes: what one conversion cycle consumes and yields, per cycle and as rates.
import Conveyor.Product
import Conveyor.Rate

/-!
# Recipes

One cycle of a recipe completes every so many ticks, consumes its input parts and yields its output
parts. A product may appear in several parts of one side and on both sides. The simulator works with
the totals per cycle, the balancer with the same figures as rates.
-/

namespace Conveyor

/-- So many units of a product per cycle. -/
structure Part where
  product : Product
  amount : Int := 1
deriving DecidableEq, Repr

/-- One cycle completes every `rate.ticks` ticks. -/
structure Recipe where
  rate : Rate
  inputs : List Part
  outputs : List Part
deriving DecidableEq

namespace Recipe

/-! ## Building -/

/-- The recipe that cycles once every `period` ticks. -/
def every (period : Int) (h : 0 < period) (inputs outputs : List Part) : Recipe :=
  ⟨⟨1, .whole period, by decide, h⟩, inputs, outputs⟩

/-- The recipe that cycles once every so many ticks, if the period is a positive integer. -/
def ofPeriod (period : Value) (inputs outputs : List Part) : Except Fault Recipe :=
  match period with
  | .int n => if h : 0 < n then .ok (every n h inputs outputs) else Fault.stop (.badPeriod period)
  | _ => Fault.stop (.badPeriod period)

/-! ## Per cycle -/

/-- Amounts summed by product, in order of first appearance. -/
def totals (parts : List Part) : Table Product Int :=
  parts.foldl (fun t part => t.insert part.product (t.getD part.product 0 + part.amount)) ∅

def inputTotals (r : Recipe) : Table Product Int := totals r.inputs

def outputTotals (r : Recipe) : Table Product Int := totals r.outputs

/-- Units of a product that one cycle consumes. -/
def requiredOf (r : Recipe) (p : Product) : Int := r.inputTotals.getD p 0

/-- Units of a product that one cycle yields. -/
def yieldOf (r : Recipe) (p : Product) : Int := r.outputTotals.getD p 0

/-- The distinct input products, in slot order. -/
def inputProducts (r : Recipe) : List Product := r.inputTotals.keys

/-- A cycle neither consumes nor yields anything. -/
def isInert (r : Recipe) : Bool := r.inputs.isEmpty && r.outputs.isEmpty

/-! ## Per tick -/

/-- Ticks per cycle, in whole ticks. -/
def period (r : Recipe) : Except Fault Int := r.rate.ticks.truncate

/-- The summed rate at which the parts of a product go by. -/
def flowOf (r : Recipe) (parts : List Part) (p : Product) : Except Fault Rate :=
  (parts.filter (·.product = p)).foldlM (fun total part => do
    let rate ← r.rate.times part.amount
    total.add rate) Rate.zero

/-- Ideal consumption rate of a product by one copy. -/
def inflowOf (r : Recipe) (p : Product) : Except Fault Rate := r.flowOf r.inputs p

/-- Ideal production rate of a product by one copy. -/
def outflowOf (r : Recipe) (p : Product) : Except Fault Rate := r.flowOf r.outputs p

end Recipe

end Conveyor
