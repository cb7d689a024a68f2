-- SUMMARY: Arenas: all streams of a line by index, and how streams are added and dropped.
import Conveyor.Action
import Conveyor.Stream

/-!
# Arenas

An arena owns the streams of a line and addresses them by stable indices. A stream that is added may
only bind streams that are already there, so an arena built by `add` alone has no cycles. Slots that
are bound anew from outside can make some.
-/

namespace Conveyor

/-- All streams, by index. -/
structure Arena where
  streams : List Stream := []
deriving DecidableEq, Inhabited

namespace Arena

def size (a : Arena) : Nat := a.streams.length

def stream? (a : Arena) (i : Nat) : Option Stream := a.streams[i]?

/-- The stream at an index. -/
def stream (a : Arena) (i : Nat) : Except Fault Stream :=
  match a.stream? i with
  | some s => .ok s
  | none => .error .noSuchIndex

/-- Change the stream at an index, if there is one. -/
def modify (a : Arena) (i : Nat) (f : Stream → Stream) : Arena :=
  ⟨a.streams.modify i f⟩

@[simp] theorem size_modify (a : Arena) (i : Nat) (f : Stream → Stream) :
    (a.modify i f).size = a.size := by
  simp [size, modify]

theorem stream?_modify (a : Arena) (i j : Nat) (f : Stream → Stream) :
    (a.modify i f).stream? j = if i = j then (a.stream? j).map f else a.stream? j := by
  simp only [stream?, modify, List.getElem?_modify]
  split <;> simp

/-- The buffer of a product at a stream, if it has one. -/
def buffer? (a : Arena) (i : Nat) (p : Product) : Option Buffer :=
  (a.stream? i).bind (·.buffers.get? p)

/-- The buffer of a product at a stream, which must have one. -/
def buffer (a : Arena) (i : Nat) (p : Product) : Except Fault Buffer :=
  match a.buffer? i p with
  | some b => .ok b
  | none => .error .noSuchKey

/-! ## Adding and dropping -/

/-- The slot that binds a product to a stream, if the stream exists. -/
def slot (a : Arena) (p : Product) (index : Int) : Except Fault Slot :=
  if 0 ≤ index ∧ index < a.size then .ok ⟨p, index.toNat⟩
  else Refusal.fail (.unknownSupplier p.id index none)

/-- Append a stream with one binding per input slot of its recipe. The index of the stream comes
with the arena. -/
def add (a : Arena) (recipe : Recipe) (bindings : List (Product × Int)) (mult : Int := 1)
    (bufferMultiplier : Int := defaultBufferMultiplier) : Except Fault (Nat × Arena) := do
  if bindings.length ≠ recipe.inputs.length then
    Refusal.fail (.slotCount recipe.inputs.length bindings.length none)
  else if mult < 1 then Refusal.fail (.belowMinimum .multiplier 1 mult none)
  else
    let slots ← bindings.mapM fun (p, index) => a.slot p index
    return (a.size, ⟨a.streams ++ [Stream.fresh recipe slots mult bufferMultiplier]⟩)

/-- The length that a list of `size` items keeps when it is cut at `length`, where a negative length
counts from the end. -/
def cut (size : Nat) (length : Int) : Nat :=
  if length < 0 then (size + length).toNat else length.toNat

/-- Drop every stream from an index on. -/
def truncate (a : Arena) (length : Int) : Arena :=
  ⟨a.streams.take (cut a.size length)⟩

end Arena

end Conveyor
