-- SUMMARY: Raising the multipliers of suppliers until a stream can run at full efficiency.
import Conveyor.Arena.Efficiency

/-!
# Balancing

Balancing a stream walks its bindings. A supplier with too few parallel copies gets its
multiplier raised, and its buffers with it; a supplier with enough copies that still delivers too
little is balanced in turn. All slots of a stream are looked at before any supplier is scaled, and
of two raises of one supplier the larger counts. Multipliers are never lowered.
-/

namespace Conveyor

/-! ## Shortfall and the multiplier that mends it -/

/-- Tolerance for rounding in efficiency ratios. -/
def defaultEpsilon : Float := 1e-9

/-- The least multiplier above `mult` whose capacity meets demand, where `needed` is the share of
the demand that `mult` copies meet. Error below `ε` does not count. -/
def raisedMultiplier (mult : Int) (needed ε : Float) : Except Fault Int := do
  let exact ← divideDoubles (← toDouble mult) needed
  let copies ← ceiling (exact - ε)
  return max copies (mult + 1)

/-! ## The walk -/

/-- A raise of a stream's multiplier. -/
structure Change where
  stream : Nat
  old : Int
  new : Int
deriving DecidableEq, Repr

/-- An arena and the raises made so far, in order. -/
structure Balancing where
  arena : Arena
  changes : List Change := []

namespace Balancing

/-- Run a computation on the arena as it is now. -/
def query {α : Type} (f : Arena → Except Fault α) : Action Balancing α := do
  let b ← Action.current
  f b.arena

/-- Raises that wait until all slots have been looked at, one per supplier. -/
abbrev Pending := Table Nat Int

/-- A raise of a supplier to at least `mult`. -/
def Pending.raise (pending : Pending) (supplier : Nat) (mult : Int) : Pending :=
  pending.insert supplier (max mult (pending.getD supplier 0))

/-- Apply a raise to a stream, unless it has been overtaken. -/
def scale (i : Nat) (new : Int) : Action Balancing Bool := do
  let b ← Action.current
  let s ← b.arena.stream i
  if new ≤ s.mult then return false
  let scaled ← s.scale new
  Action.assign
    { arena := b.arena.modify i fun _ => scaled, changes := b.changes ++ [⟨i, s.mult, new⟩] }
  Action.report (.scaled i s.mult new)
  return true

/-- What one slot of stream `i` asks for: a raise of its supplier is added to `pending`; a supplier
with enough copies that delivers too little is balanced by `balance`. -/
def slot (balance : Nat → Action Balancing Unit) (ε : Float) (i : Nat) (pending : Pending)
    (slot : Slot) : Action Balancing Pending := do
  let u := slot.supplier
  let supplier ← query (·.stream u)
  let s ← query (·.stream i)
  let inflow ← s.recipe.inflowOf slot.product
  let optimal ← inflow.times s.mult
  let outflow ← supplier.recipe.outflowOf slot.product
  let capacity ← outflow.times supplier.mult
  if capacity.isZero then
    Action.report (.cannotSupply u slot.product i)
    return pending
  else if (← capacity.isShortOf optimal ε) then
    let needed ← capacity.ratio optimal
    let mult ← raisedMultiplier supplier.mult needed ε
    return pending.raise u mult
  else
    match ← query (·.rateOf u slot.product) with
    | none => return pending
    | some realized =>
      if (← realized.isShortOf optimal ε) then balance u
      return pending

/-- Balance stream `i` of an arena of `n` streams, on the way to balancing the streams of `path`. -/
def balance (ε : Float) (n : Nat) (path : List Nat) (i : Nat) : Action Balancing Unit := do
  if _hp : i ∈ path then Refusal.fail (.suppliesItself i)
  else
    let efficiency ← query (·.efficiency i)
    if 1.0 - ε ≤ efficiency then return
    if _hi : i < n then
      let s ← query (·.stream i)
      let pending ← s.inputs.foldlM (slot (balance ε n (i :: path)) ε i) ∅
      pending.entries.forM fun (u, mult) => do
        if (← scale u mult) then balance ε n (i :: path) u
termination_by Path.remaining n path
decreasing_by
  · exact Path.remaining_cons_lt _hi _hp
  · exact Path.remaining_cons_lt _hi _hp

end Balancing

/-- Scale the supply chain behind a stream so that it can run at full efficiency. The raises come
in the order in which they were made. -/
def Arena.solve (i : Nat) (ε : Float := defaultEpsilon) : Action Arena (List Change) :=
  Action.focus (⟨·, []⟩) (fun b _ => b.arena) do
    let b ← Action.current
    Balancing.balance ε b.arena.size [] i
    return (← Action.current).changes

end Conveyor
