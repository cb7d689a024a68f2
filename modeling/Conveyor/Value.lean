-- SUMMARY: The values that a definition may be handed, and how they are shown in messages.
import Conveyor.Number.Basic
import Conveyor.Text.Numeral
import Conveyor.Text.Quoted

/-!
# Values

A builder hands a factory parts, references to streams, recipe calls, or anything else by mistake.
The factory takes exactly the right ones and shows the others in its refusals, so a value covers
them all. The names inside a reference are values too, because nothing checks them before they are
looked up.
-/

namespace Conveyor

/-- What a definition may be handed. -/
inductive Value
  | none
  | bool (b : Bool)
  | int (n : Int)
  | real (x : Float)
  | text (s : String)
  | list (xs : List Value)
  /-- Values under names. -/
  | record (fields : List (String × Value))
  /-- So many units of a product. -/
  | part (product amount : Value)
  /-- A stream that is already registered. -/
  | stream (name : Value)
  /-- A new stream that runs a recipe at some parallelism, one argument per input slot. -/
  | call (recipe : Value) (args : List Value) (mult : Value)
deriving Inhabited

namespace Value

/-! ## Text -/

/-- Items between commas. -/
def commas (xs : List String) : String := ", ".intercalate xs

/-- Items in round brackets; a single one keeps its comma. -/
def bracketed : List String → String
  | [x] => "(" ++ x ++ ",)"
  | xs => "(" ++ commas xs ++ ")"

mutual

/-- A value as it is written in a definition. -/
def shown : Value → String
  | .none => "None"
  | .bool true => "True"
  | .bool false => "False"
  | .int n => toString n
  | .real x => Decimal.shown x
  | .text s => Text.quoted s
  | .list xs => "[" ++ commas (shownAll xs) ++ "]"
  | .record fields => "\x7b" ++ commas (shownFields fields) ++ "\x7d"
  | .part product amount =>
    "PartRef(product=" ++ shown product ++ ", amount=" ++ shown amount ++ ")"
  | .stream name => "StreamRef(name=" ++ shown name ++ ")"
  | .call recipe args mult =>
    "RecipeCall(recipe=" ++ shown recipe ++ ", args=" ++ bracketed (shownAll args) ++
      ", mult=" ++ shown mult ++ ")"

def shownAll : List Value → List String
  | [] => []
  | x :: xs => shown x :: shownAll xs

def shownFields : List (String × Value) → List String
  | [] => []
  | (name, x) :: fields => (Text.quoted name ++ ": " ++ shown x) :: shownFields fields

end

/-- A value inside a sentence: a text stands for itself. -/
def label : Value → String
  | .text s => s
  | v => v.shown

mutual

/-- No integer in the value has too many digits to be shown. -/
def isWritable : Value → Bool
  | .int n => IsWritable n
  | .list xs => areWritable xs
  | .record fields => haveWritable fields
  | .part product amount => isWritable product && isWritable amount
  | .stream name => isWritable name
  | .call recipe args mult => isWritable recipe && areWritable args && isWritable mult
  | _ => true

def areWritable : List Value → Bool
  | [] => true
  | x :: xs => isWritable x && areWritable xs

def haveWritable : List (String × Value) → Bool
  | [] => true
  | (_, x) :: fields => isWritable x && haveWritable fields

end

/-! ## What a value can be used for -/

mutual

/-- The value can be looked up in a table of names: it holds no list and no record. -/
def isKey : Value → Bool
  | .list _ | .record _ => false
  | .part product amount => product.isKey && amount.isKey
  | .stream name => name.isKey
  | .call recipe args mult => recipe.isKey && areKeys args && mult.isKey
  | _ => true

def areKeys : List Value → Bool
  | [] => true
  | x :: xs => x.isKey && areKeys xs

end

/-- The items of a list, or the characters of a text. -/
def items? : Value → Option (List Value)
  | .list xs => some xs
  | .text s => some (s.toList.map fun c => .text c.toString)
  | _ => Option.none

/-- A value as a number; truth counts as one. -/
def number? : Value → Option Number
  | .int n => some (.whole n)
  | .bool b => some (.whole (if b then 1 else 0))
  | .real x => some (.real x)
  | _ => Option.none

def ofNumber : Number → Value
  | .whole n => .int n
  | .real x => .real x

/-- An integer; a truth value is none. -/
def int? : Value → Option Int
  | .int n => some n
  | _ => Option.none

end Value

end Conveyor
