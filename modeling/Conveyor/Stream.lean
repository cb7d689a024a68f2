-- SUMMARY: Streams: recipes that run at some parallelism, with their bindings and buffers.
import Conveyor.Buffer
import Conveyor.Recipe

/-!
# Streams

A stream runs a recipe at `mult` parallel copies. Each input slot binds a product to the stream that
supplies it. A stream starts with one empty buffer per output product and gains a buffer for an
input product when it first draws it; a product that is both input and output has one buffer.
-/

namespace Conveyor

/-- A product and the index of the stream that supplies it. -/
structure Slot where
  product : Product
  supplier : Nat
deriving DecidableEq, Repr

/-- Units that one product holds and can hold, per stream. -/
abbrev Stock := Table Product Buffer

/-- A recipe at so many copies. `next` counts the ticks to the next cycle boundary once the stream
has been advanced. -/
structure Stream where
  recipe : Recipe
  inputs : List Slot
  mult : Int
  buffers : Stock
  next : Option Int := none
deriving DecidableEq

/-- Cycles' worth of a part that a buffer holds unless another number is given. -/
def defaultBufferMultiplier : Int := 8

namespace Stream

/-! ## Building -/

/-- A stream with an empty buffer for every output product. -/
def fresh (recipe : Recipe) (inputs : List Slot) (mult bufferMultiplier : Int) : Stream where
  recipe
  inputs
  mult
  buffers := recipe.outputTotals.mapValues fun amount => ⟨0, amount * bufferMultiplier * mult⟩

/-! ## Bindings -/

def isLeaf (s : Stream) : Bool := s.inputs.isEmpty

/-- The distinct streams that supply this one, in slot order. -/
def suppliers (s : Stream) : List Nat := (s.inputs.map Slot.supplier).eraseDups

/-! ## Buffers -/

/-- The buffer that an input product gets when it is first drawn. -/
def inputBuffer (s : Stream) (p : Product) (bufferMultiplier : Int) : Buffer :=
  (s.buffers.get? p).getD ⟨0, s.recipe.requiredOf p * bufferMultiplier * s.mult⟩

/-- The stream with a buffer for an input product. -/
def openInput (s : Stream) (p : Product) (bufferMultiplier : Int) : Stream :=
  if s.buffers.contains p then s
  else { s with buffers := s.buffers.insert p (s.inputBuffer p bufferMultiplier) }

/-- The stream with so many units more of a product, if it holds a buffer for it. -/
def gain (s : Stream) (p : Product) (units : Int) : Stream :=
  { s with buffers := s.buffers.modify p (·.gain units) }

/-- The stream at another multiplier; every capacity follows in proportion, rounded down. -/
def scale (s : Stream) (mult : Int) : Except Fault Stream :=
  if s.mult = 0 ∧ s.buffers.size ≠ 0 then .error .divisionByZero
  else
    .ok { s with
      mult
      buffers := s.buffers.mapValues fun b => b.resize ((b.max * mult).fdiv s.mult) }

/-! ## Production -/

/-- Every input product is in stock and every output product has room. -/
def canProduce (s : Stream) : Bool :=
  (s.recipe.inputTotals.entries.all fun (p, amount) =>
    (s.buffers.get? p).any fun b => amount * s.mult ≤ b.current) &&
  (s.recipe.outputTotals.entries.all fun (p, amount) =>
    (s.buffers.get? p).any fun b => amount * s.mult ≤ b.free)

/-- The stock after `sign` times the amounts of `totals`, for all copies. -/
def settle (sign mult : Int) (totals : Table Product Int) (stock : Stock) : Stock :=
  totals.entries.foldl (fun bs (p, amount) => bs.modify p (·.gain (sign * (amount * mult)))) stock

/-- One conversion cycle of all copies, if stock and room allow it. -/
def produce? (s : Stream) : Option Stream :=
  if s.canProduce then
    some { s with
      buffers := settle 1 s.mult s.recipe.outputTotals
        (settle (-1) s.mult s.recipe.inputTotals s.buffers) }
  else none

end Stream

end Conveyor
