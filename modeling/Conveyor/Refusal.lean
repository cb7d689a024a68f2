-- SUMMARY: Why a factory or an arena refuses a call, the name each refusal is about, and its wording.
import Conveyor.Value

/-!
# Refusals

Every check that a factory or an arena makes has its own constructor, which carries what the message
says. The kind, the name and the wording of a refusal are functions of it.
-/

namespace Conveyor

/-- The kinds of refusal. -/
inductive Refusal.Kind
  | malformedInput
  | invalidArguments
  | duplicateDefinition
  | unresolvedReference
  | cycle
deriving DecidableEq, Repr

/-- The integers that calls are checked for. -/
inductive Quantity
  | period
  | partAmount
  | multiplier
  | bufferCapacity
  | tickCount
deriving DecidableEq, Repr

/-- The tables in which names are looked up. -/
inductive Definition
  | product
  | recipe
  | stream
deriving DecidableEq, Repr

/-- Why a call is refused. An `owner` is the definition or stream that was being worked on. -/
inductive Refusal
  | notAnInteger (quantity : Quantity) (value : Value) (owner : Option String)
  | belowMinimum (quantity : Quantity) (minimum value : Int) (owner : Option String)
  | slotCount (expected given : Nat) (owner : Option String)
  | unknownSupplier (product index : Int) (owner : Option String)
  | notAPart (value : Value) (owner : String)
  | notABinding (value : Value) (owner : String)
  | notACall (stream : String) (value : Value)
  | argumentCount (recipe : String) (expected given : Nat) (owner : String)
  | noBuffer (stream product : String)
  | notProduced (stream product : String)
  | bufferArguments (stream : String)
  | solveArguments (stream : String)
  | logArguments (stream : String)
  | noMethod (stream method : String)
  | duplicate (sort : Definition) (name : String)
  | unresolved (sort : Definition) (name : Value)
  | suppliesItself (index : Nat)
  | supplyEachOther (indices : List Nat)

/-- How a quantity is called in a sentence. -/
def Quantity.label : Quantity → String
  | .period => "period"
  | .partAmount => "part amount"
  | .multiplier => "multiplier"
  | .bufferCapacity => "buffer capacity"
  | .tickCount => "tick count"

/-- How a quantity is called where a sentence starts. -/
def Quantity.heading : Quantity → String
  | .period => "Period"
  | .partAmount => "Part amount"
  | .multiplier => "Multiplier"
  | .bufferCapacity => "Buffer capacity"
  | .tickCount => "Tick count"

def Definition.label : Definition → String
  | .product => "product"
  | .recipe => "recipe"
  | .stream => "stream"

def Definition.heading : Definition → String
  | .product => "Product"
  | .recipe => "Recipe"
  | .stream => "Stream"

def Refusal.Kind.label : Refusal.Kind → String
  | .malformedInput => "malformed input"
  | .invalidArguments => "invalid arguments"
  | .duplicateDefinition => "duplicate definition"
  | .unresolvedReference => "unresolved reference"
  | .cycle => "cycle"

namespace Refusal

def kind : Refusal → Kind
  | .notAnInteger .. | .belowMinimum .. | .slotCount .. | .unknownSupplier .. | .notAPart ..
  | .notABinding .. | .notACall .. => .malformedInput
  | .argumentCount .. | .noBuffer .. | .notProduced .. | .bufferArguments ..
  | .solveArguments .. | .logArguments .. | .noMethod .. => .invalidArguments
  | .duplicate .. => .duplicateDefinition
  | .unresolved .. => .unresolvedReference
  | .suppliesItself .. | .supplyEachOther .. => .cycle

/-- The definition or stream that the refusal is about, if any. -/
def name? : Refusal → Option Value
  | .notAnInteger _ _ owner | .belowMinimum _ _ _ owner | .slotCount _ _ owner
  | .unknownSupplier _ _ owner => owner.map .text
  | .notAPart _ owner | .notABinding _ owner | .argumentCount _ _ _ owner => some (.text owner)
  | .notACall stream _ | .noBuffer stream _ | .notProduced stream _ | .bufferArguments stream
  | .solveArguments stream | .logArguments stream | .noMethod stream _ => some (.text stream)
  | .duplicate _ name => some (.text name)
  | .unresolved _ name => some name
  | .suppliesItself _ | .supplyEachOther _ => none

/-- The refusal as one about `owner`, where it did not know what it was part of. -/
def withOwner (owner : String) : Refusal → Refusal
  | .belowMinimum quantity minimum value _ => .belowMinimum quantity minimum value (some owner)
  | .slotCount expected given _ => .slotCount expected given (some owner)
  | .unknownSupplier product index _ => .unknownSupplier product index (some owner)
  | r => r

/-- No integer that the message shows has too many digits. -/
def isWritable : Refusal → Bool
  | .notAnInteger _ value _ | .notAPart value _ | .notABinding value _ | .notACall _ value
  | .unresolved _ value => value.isWritable
  | .belowMinimum _ minimum value _ => IsWritable minimum && IsWritable value
  | .unknownSupplier product index _ => IsWritable product && IsWritable index
  | _ => true

def message : Refusal → String
  | .notAnInteger quantity value _ =>
    "Expected an integer " ++ quantity.label ++ ", got " ++ value.shown
  | .belowMinimum quantity minimum value _ =>
    quantity.heading ++ " must be at least " ++ toString minimum ++ ", got " ++ toString value
  | .slotCount expected given _ =>
    "Recipe takes " ++ toString expected ++ " inputs, got " ++ toString given
  | .unknownSupplier product index _ =>
    "Input slot for product " ++ toString product ++ " refers to unknown stream " ++ toString index
  | .notAPart value _ => "Expected a recipe part, got " ++ value.shown
  | .notABinding value _ => "Expected a stream or recipe call, got " ++ value.shown
  | .notACall stream value =>
    "Stream '" ++ stream ++ "' must be defined by a recipe call, got " ++ value.shown
  | .argumentCount recipe expected given _ =>
    "Recipe '" ++ recipe ++ "' takes " ++ toString expected ++ " inputs, got " ++ toString given
  | .noBuffer stream product => "Stream '" ++ stream ++ "' has no buffer for '" ++ product ++ "'"
  | .notProduced stream product =>
    "Stream '" ++ stream ++ "' does not produce '" ++ product ++ "'"
  | .bufferArguments _ => "buffer expects (product, capacity)"
  | .solveArguments _ => "solve takes no arguments"
  | .logArguments _ => "log expects product names"
  | .noMethod _ method => "Streams have no method '" ++ method ++ "'"
  | .duplicate sort name => sort.heading ++ " '" ++ name ++ "' already exists"
  | .unresolved sort name => "Unknown " ++ sort.label ++ " '" ++ name.label ++ "'"
  | .suppliesItself index => "Stream " ++ toString index ++ " supplies its own input"
  | .supplyEachOther indices =>
    "Streams [" ++ Value.commas (indices.map toString) ++ "] supply each other"

end Refusal

end Conveyor
