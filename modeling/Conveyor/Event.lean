-- SUMMARY: What a computation reports on its way, with the level and the wording of each report.
import Conveyor.Buffer
import Conveyor.Product

/-!
# Events

Registering, scaling, producing and discarding are reported as they happen. A report changes nothing
but the log. The handler that is modelled lets errors out of the call: an event that the log takes
in, but whose integers have too many digits to be written, stops what reports it.
-/

namespace Conveyor

/-- How much an event matters. -/
inductive Level
  | debug
  | info
  | warning
deriving DecidableEq, Repr

/-- Levels in ascending order. -/
def Level.rank : Level → Nat
  | .debug => 0
  | .info => 1
  | .warning => 2

def Level.label : Level → String
  | .debug => "DEBUG"
  | .info => "INFO"
  | .warning => "WARNING"

/-- What is reported. -/
inductive Event
  | registeredProduct (name : String) (product : Product)
  | registeredRecipe (name : String) (period : Int)
  | registeredStream (name : String) (index : Nat)
  | discarded (units : Int) (product stream : String)
  | cannotSupply (supplier : Nat) (product : Product) (stream : Nat)
  | scaled (stream : Nat) (old new : Int)
  | produced (stream : Nat) (units : Int) (product : Product) (buffer : Buffer)
deriving DecidableEq, Repr

namespace Event

def level : Event → Level
  | .registeredProduct .. | .registeredRecipe .. | .registeredStream .. | .produced .. => .debug
  | .scaled .. => .info
  | .discarded .. | .cannotSupply .. => .warning

/-- No integer that the message shows has too many digits. -/
def isWritable : Event → Bool
  | .registeredProduct _ p => IsWritable p.id && IsWritable p.module
  | .registeredRecipe _ period => IsWritable period
  | .registeredStream .. => true
  | .discarded units _ _ => IsWritable units
  | .cannotSupply _ p _ => IsWritable p.id
  | .scaled _ old new => IsWritable old && IsWritable new
  | .produced _ units p buffer =>
    IsWritable units && IsWritable p.id && IsWritable buffer.current && IsWritable buffer.max

def message : Event → String
  | .registeredProduct name p =>
    "Registered product " ++ name ++ " as Product(id=" ++ toString p.id ++ ", module=" ++
      toString p.module ++ ")"
  | .registeredRecipe name period =>
    "Registered recipe " ++ name ++ " every " ++ toString period ++ " ticks"
  | .registeredStream name index =>
    "Registered stream " ++ name ++ " at index " ++ toString index
  | .discarded units product stream =>
    "Discarded " ++ toString units ++ " " ++ product ++ " above the new capacity of " ++ stream
  | .cannotSupply supplier p stream =>
    "Stream " ++ toString supplier ++ " cannot supply product " ++ toString p.id ++ " to stream " ++
      toString stream ++ ", skipping"
  | .scaled stream old new =>
    "Scaled stream " ++ toString stream ++ " from x" ++ toString old ++ " to x" ++ toString new
  | .produced stream units p buffer =>
    "Stream " ++ toString stream ++ " produced " ++ toString units ++ " of product " ++
      toString p.id ++ " (" ++ buffer.text ++ ")"

end Event

end Conveyor
