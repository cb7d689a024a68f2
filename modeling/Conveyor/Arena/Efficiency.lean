-- SUMMARY: How much of its theoretical throughput each stream can sustain, given what supplies it.
import Conveyor.Arena
import Conveyor.Graph.Digraph

/-!
# Efficiency

A stream without bindings runs at full efficiency. Any other stream runs at the least of its supply
ratios, one per input product: what its suppliers deliver over what it ideally consumes, never above
one. What a supplier delivers depends on its own efficiency, so the definition follows the bindings
back to the suppliers; a stream that is met again on the way supplies its own input.

The formulas are written once, over any way to find the efficiency of a supplier (`realizedBy`,
`suppliedBy`, `efficiencyBy`). A query uses them with a cache of the efficiencies that it has
settled.
-/

namespace Conveyor

namespace Arena

variable {m : Type → Type} [Monad m] [MonadLiftT (Except Fault) m]

/-! ## One stream, given the efficiency of the others -/

/-- Realized outflow of a product of stream `i`, or nothing if the stream does not make it. -/
def realizedBy (efficiency : Nat → m Float) (a : Arena) (i : Nat) (p : Product) :
    m (Option Rate) := do
  let s ← a.stream i
  let outflow ← s.recipe.outflowOf p
  if outflow.isZero then return none
  let stretched ← outflow.stretch (← efficiency i)
  let total ← stretched.times s.mult
  return some total

/-- Realized inflow of a product, summed over the distinct suppliers of stream `i`. -/
def suppliedBy (efficiency : Nat → m Float) (a : Arena) (i : Nat) (p : Product) : m Rate := do
  let s ← a.stream i
  s.suppliers.foldlM (fun total u => do
    match ← realizedBy efficiency a u p with
    | some rate => total.add rate
    | none => return total) Rate.zero

/-- The least of some ratios, never above one; nothing supplied is no efficiency at all. -/
def leastRatio : List Float → Float
  | [] => 0.0
  | x :: xs =>
    let least := xs.foldl (fun least y => if y < least then y else least) x
    if 1.0 < least then 1.0 else least

/-- What is supplied of a product over what stream `s`, at index `i`, ideally consumes of it, or
nothing if it consumes none. -/
def ratioBy (efficiency : Nat → m Float) (a : Arena) (i : Nat) (s : Stream) (p : Product) :
    m (Option Float) := do
  let inflow ← s.recipe.inflowOf p
  let optimal ← inflow.times s.mult
  if optimal.isZero then return none
  let supplied ← suppliedBy efficiency a i p
  let ratio ← supplied.ratio optimal
  return some ratio

/-- The efficiency of stream `s`, at index `i`, with bindings. -/
def efficiencyBy (efficiency : Nat → m Float) (a : Arena) (i : Nat) (s : Stream) : m Float := do
  let ratios ← s.recipe.inputProducts.mapM (ratioBy efficiency a i s)
  return leastRatio (ratios.filterMap id)

/-! ## Queries -/

/-- A query remembers the efficiencies that it has settled. -/
abbrev Query := StateT (List (Nat × Float)) (Except Fault)

/-- The efficiency of stream `i`, for a query that came along `path`. -/
def settledEfficiency (a : Arena) (path : List Nat) (i : Nat) : Query Float := do
  match (← get).lookup i with
  | some e => return e
  | none =>
    if hp : i ∈ path then Refusal.fail (.suppliesItself i)
    else if hi : i < a.size then
      let s := a.streams[i]
      if s.isLeaf then return 1.0
      let e ← efficiencyBy (settledEfficiency a (i :: path)) a i s
      set ((i, e) :: (← get))
      return e
    else throw .noSuchIndex
termination_by Path.remaining a.size path
decreasing_by
  exact Path.remaining_cons_lt hi hp

/-- Fraction of its theoretical throughput that a stream can sustain. -/
def efficiency (a : Arena) (i : Nat) : Except Fault Float :=
  (settledEfficiency a [] i).run' []

/-- Realized outflow of a product, or nothing if the stream does not make it. -/
def rateOf (a : Arena) (i : Nat) (p : Product) : Except Fault (Option Rate) :=
  (realizedBy (settledEfficiency a []) a i p).run' []

/-- Realized inflow of a product, summed over the distinct suppliers of a stream. -/
def suppliedRate (a : Arena) (i : Nat) (p : Product) : Except Fault Rate :=
  (suppliedBy (settledEfficiency a []) a i p).run' []

end Arena

end Conveyor
