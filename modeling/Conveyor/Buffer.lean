-- SUMMARY: Bounded stock of one product, and the moves between two buffers.
import Conveyor.Fault

/-!
# Buffers

A buffer holds stock up to a capacity. Filling one buffer from another moves as much as the source
holds and the destination has room for, so nothing is created or lost on the way.
-/

namespace Conveyor

/-- Stock and capacity. -/
structure Buffer where
  current : Int := 0
  max : Int := 0
deriving DecidableEq, Repr, Inhabited

namespace Buffer

/-- Room that is left. -/
def free (b : Buffer) : Int := Max.max (b.max - b.current) 0

/-- Units that a transfer from `source` moves. -/
def movable (b source : Buffer) : Int := min source.current b.free

/-- The buffer with so many units more. -/
def gain (b : Buffer) (units : Int) : Buffer := { b with current := b.current + units }

/-- Units that do not fit a capacity. -/
def spill (b : Buffer) (capacity : Int) : Int := Max.max (b.current - capacity) 0

/-- The buffer at a new capacity, without the stock above it. -/
def resize (b : Buffer) (capacity : Int) : Buffer := ⟨b.current - b.spill capacity, capacity⟩

/-- Stock and capacity as a text. -/
def text (b : Buffer) : String := toString b.current ++ "/" ++ toString b.max

/-- Stock and capacity, if their digits can be written. -/
def written (b : Buffer) : Except Fault String := do
  let current ← Conveyor.written b.current
  let max ← Conveyor.written b.max
  return current ++ "/" ++ max

/-- Fill one buffer of a list from another, which may be the same one. The units moved come with
the list that is left. -/
def fill? (bs : List Buffer) (index source : Nat) : Option (Int × List Buffer) := do
  let b ← bs[index]?
  let s ← bs[source]?
  let moved := b.movable s
  return (moved, (bs.modify source (·.gain (-moved))).modify index (·.gain moved))

end Buffer

end Conveyor
