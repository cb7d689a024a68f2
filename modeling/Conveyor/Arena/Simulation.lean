-- SUMMARY: Passing time: streams pull inputs, run cycles and fill their buffers, tick by tick.
import Conveyor.Arena.Order

/-!
# Simulation

A stream counts down the ticks to its next cycle boundary. Passing time first uses up what is left
of the running cycle, then counts whole periods, and the rest starts the next countdown. At every
boundary the stream pulls as much input stock as fits from its suppliers and attempts one conversion
cycle. The first attempt that fails abandons the rest of the call; the stock that it pulled stays
where it is.
-/

namespace Conveyor

/-! ## Countdowns -/

namespace Clock

/-- Boundaries crossed and ticks left until the next one, where a countdown starts with a whole
period and `ticks` is above zero. -/
def fromBoundary (period ticks : Int) : Except Fault (Int × Int) :=
  if ticks < period then .ok (0, period - ticks)
  else if period = 0 then .error .divisionByZero
  else
    let rest := ticks.fmod period
    .ok (ticks.fdiv period, if 0 < rest then period - rest else period)

/-- Boundaries crossed in `ticks` ticks and ticks left until the one after them, where `next` ticks
are left until the first. -/
def advance (next period ticks : Int) : Except Fault (Int × Int) :=
  if ticks ≤ 0 then .ok (0, next)
  else if next = period then fromBoundary period ticks
  else if ticks < next then .ok (0, next - ticks)
  else if ticks - next ≤ 0 then .ok (1, period)
  else (fromBoundary period (ticks - next)).map fun (cycles, left) => (cycles + 1, left)

end Clock

/-! ## Reports -/

/-- What one stream produced in one call, per output product. -/
structure StreamTick where
  index : Nat
  produced : Table Product Int

def StreamTick.total (t : StreamTick) : Int := t.produced.values.foldl (· + ·) 0

namespace Arena

/-! ## Pulling -/

/-- Move stock of a product from stream `u` to stream `i`, as much as `i` has room for. -/
def transfer (a : Arena) (i u : Nat) (p : Product) : Arena :=
  match a.buffer? i p, a.buffer? u p with
  | some dest, some source =>
    let moved := dest.movable source
    (a.modify u (·.gain p (-moved))).modify i (·.gain p moved)
  | _, _ => a

/-- Give stream `i` a buffer for an input product, if it has none. -/
def openInput (a : Arena) (i : Nat) (p : Product) (bufferMultiplier : Int) : Arena :=
  a.modify i (·.openInput p bufferMultiplier)

/-- Pull the product of one slot of stream `i`. -/
def pullSlot (bufferMultiplier : Int) (i : Nat) (slot : Slot) : Action Arena Unit := do
  Action.update (·.openInput i slot.product bufferMultiplier)
  let a ← Action.current
  let _ ← a.stream slot.supplier
  Action.update (·.transfer i slot.supplier slot.product)

/-- Pull as much input stock as fits, slot by slot. -/
def pull (bufferMultiplier : Int) (i : Nat) : Action Arena Unit := do
  let a ← Action.current
  let s ← a.stream i
  s.inputs.forM (pullSlot bufferMultiplier i)

/-! ## Cycles -/

/-- Pull inputs and attempt one conversion cycle. -/
def attempt (bufferMultiplier : Int) (i : Nat) : Action Arena Bool := do
  pull bufferMultiplier i
  let a ← Action.current
  let s ← a.stream i
  match s.produce? with
  | some produced =>
    Action.assign (a.modify i fun _ => produced)
    return true
  | none => return false

/-- Attempt so many cycles, up to the first that fails, and count on from `completed`. -/
def runCycles (bufferMultiplier : Int) (i : Nat) : Nat → Nat → Action Arena Nat
  | 0, completed => return completed
  | n + 1, completed => do
    if (← attempt bufferMultiplier i) then runCycles bufferMultiplier i n (completed + 1)
    else return completed

/-- Report what stream `i` produced, with the buffers as they are now. -/
def reportProduced (i : Nat) (produced : Table Product Int) : Action Arena Unit := do
  let a ← Action.current
  produced.entries.forM fun (p, units) => do
    if 0 < units then
      let held ← a.buffer i p
      Action.report (.produced i units p held)

/-- Advance one stream. Its countdown runs whether or not its cycles succeed. -/
def advance (i : Nat) (ticks : Int) (bufferMultiplier : Int := defaultBufferMultiplier) :
    Action Arena StreamTick := do
  let a ← Action.current
  let s ← a.stream i
  let period ← s.recipe.period
  let (boundaries, next) ← Clock.advance (s.next.getD period) period ticks
  Action.assign (a.modify i ({ · with next := some next }))
  let attempts := if s.recipe.isInert then 0 else boundaries.toNat
  let completed ← runCycles bufferMultiplier i attempts 0
  let produced := s.recipe.outputTotals.mapValues fun amount => completed * (amount * s.mult)
  reportProduced i produced
  return ⟨i, produced⟩

/-- Advance every stream, in an order that is fixed before the first one. -/
def tick (ticks : Int) (order : TickOrder := .suppliersFirst)
    (bufferMultiplier : Int := defaultBufferMultiplier) : Action Arena (List StreamTick) := do
  let a ← Action.current
  let indices ← a.visitOrder order
  indices.mapM fun i => advance i ticks bufferMultiplier

end Arena

end Conveyor
