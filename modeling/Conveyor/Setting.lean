-- SUMMARY: Buffer settings of the form `stream.Product:Capacity`, alone and in comma-separated lists.
import Conveyor.Fault
import Conveyor.Text.Numeral

/-!
# Buffer settings

A setting names a stream and one of its products before the last colon, divided by the first dot,
and a capacity behind the colon. White space around the three is dropped. A list separates settings
by commas and may hold blank items.
-/

namespace Conveyor

/-- A capacity for the buffer of a product at a stream. -/
structure Setting where
  stream : String
  product : String
  capacity : Int
deriving DecidableEq, Repr

namespace Setting

open Text

/-- The stream and the product of a trimmed target. -/
def parseTarget (target : List Char) : Except SettingError (String × String) :=
  match splitFirst? '.' target with
  | none => .error (.badTarget (String.ofList target))
  | some (left, right) =>
    let stream := trim left
    let product := trim right
    if stream.isEmpty || product.isEmpty then .error (.badTarget (String.ofList target))
    else .ok (String.ofList stream, String.ofList product)

/-- The capacity for a target, both trimmed. -/
def parseCapacity (capacity target : List Char) : Except SettingError Int :=
  match Numeral.parse? capacity with
  | none => .error (.notAWhole (String.ofList capacity) (String.ofList target))
  | some n =>
    if n < 0 then .error (.negative (String.ofList capacity) (String.ofList target)) else .ok n

/-- Read a setting from its characters. -/
def parseChars (cs : List Char) : Except SettingError Setting :=
  match splitLast? ':' cs with
  | none => .error (.noColon (String.ofList cs))
  | some (left, right) => do
    let target := trim left
    let (stream, product) ← parseTarget target
    let capacity ← parseCapacity (trim right) target
    return ⟨stream, product, capacity⟩

/-- Read a setting. -/
def parse (s : String) : Except SettingError Setting := parseChars s.toList

/-- Read a list of settings, in order. -/
def parseList (s : String) : Except SettingError (List Setting) :=
  (((fields ',' s.toList).map trim).filter (!·.isEmpty)).mapM parseChars

end Setting

end Conveyor
