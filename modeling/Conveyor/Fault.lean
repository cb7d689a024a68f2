-- SUMMARY: Everything that can stop a computation: refusals, and what arithmetic and look-ups cannot do.
import Conveyor.Refusal

/-!
# Faults

A refusal is one fault among others. Arithmetic can overflow a double or divide by zero, a rate can
be built from figures that make none, and an index or a key can be missing.
-/

namespace Conveyor

/-- Why a buffer setting is not one. -/
inductive SettingError
  | noColon (text : String)
  | badTarget (target : String)
  | notAWhole (capacity target : String)
  | negative (capacity target : String)
deriving DecidableEq, Repr

/-- Why a drawing cannot be written to the place that was asked for. -/
inductive PathError
  | noDirectory
  | isDirectory
  | notDirectory
  | tooLong
  /-- No file can be made there. -/
  | denied
  /-- The device takes nothing. -/
  | refusing
deriving DecidableEq, Repr

/-- What can stop a computation. -/
inductive Fault
  /-- The exact result is beyond the finite doubles, or an infinity was to become an integer. -/
  | overflow
  /-- The result would not fit the memory. -/
  | tooLarge
  | divisionByZero
  /-- A NaN was to become an integer. -/
  | notANumber
  | zeroRateDivisor
  | negativeAmount (amount : Int)
  | nonPositiveTicks (ticks : Value)
  /-- The operation does not take such a value. -/
  | unsupported
  /-- The value has no such property. -/
  | noProperty
  | noSuchIndex
  | noSuchKey
  | badPeriod (value : Value)
  | refused (refusal : Refusal)
  | setting (error : SettingError)
  | notAnOrder (value : Value)
  | negativeSteps
  /-- An integer has more digits than are written. -/
  | tooManyDigits
  | unusablePath
  | path (error : PathError)

instance : Inhabited Fault := ⟨.unsupported⟩

def SettingError.message : SettingError → String
  | .noColon text => "Invalid format: '" ++ text ++ "'. Expected 'stream.Product:Capacity'"
  | .badTarget target => "Invalid target: '" ++ target ++ "'. Expected 'stream.Product'"
  | .notAWhole capacity target =>
    "Invalid capacity '" ++ capacity ++ "' for " ++ target ++ ". Must be a whole number."
  | .negative capacity target =>
    "Invalid capacity '" ++ capacity ++ "' for " ++ target ++ ". Must not be negative."

def PathError.message : PathError → String
  | .noDirectory => "no such directory"
  | .isDirectory => "is a directory"
  | .notDirectory => "not a directory"
  | .tooLong => "file name too long"
  | .denied => "permission denied"
  | .refusing => "the device takes nothing"

namespace Fault

def message : Fault → String
  | .overflow => "number out of range"
  | .tooLarge => "out of memory"
  | .divisionByZero => "division by zero"
  | .notANumber => "cannot convert float NaN to integer"
  | .zeroRateDivisor => "division by a zero rate"
  | .negativeAmount amount => "Rate amount must be non-negative, got " ++ toString amount
  | .nonPositiveTicks ticks => "Rate ticks must be positive, got " ++ ticks.shown
  | .unsupported => "unsupported operand"
  | .noProperty => "no such property"
  | .noSuchIndex => "index out of range"
  | .noSuchKey => "no such key"
  | .badPeriod value => "Recipe period must be a positive integer, got " ++ value.shown
  | .refused refusal => refusal.message
  | .setting error => error.message
  | .notAnOrder value => value.shown ++ " is not a valid TickOrder"
  | .negativeSteps => "--ticks and --steps must not be negative"
  | .tooManyDigits =>
    "Exceeds the limit (4300 digits) for integer string conversion; " ++
      "use sys.set_int_max_str_digits() to increase the limit"
  | .unusablePath => "embedded null byte"
  | .path error => error.message

/-- The fault is a value that was checked and found wrong, and not a breakdown on the way. -/
def isValueError : Fault → Bool
  | .notANumber | .negativeAmount _ | .nonPositiveTicks _ | .badPeriod _ | .refused _
  | .setting _ | .notAnOrder _ | .negativeSteps | .tooManyDigits | .unusablePath => true
  | _ => false

/-- No integer that the message shows has too many digits. -/
def isWritable : Fault → Bool
  | .negativeAmount amount => IsWritable amount
  | .nonPositiveTicks value | .badPeriod value | .notAnOrder value => value.isWritable
  | .refused refusal => refusal.isWritable
  | _ => true

/-- Stop at a fault. One that cannot be put into words stops at that instead. -/
def stop {α : Type} (f : Fault) : Except Fault α :=
  .error (if f.isWritable then f else .tooManyDigits)

end Fault

/-- Stop with a refusal. -/
def Refusal.fail {α : Type} (r : Refusal) : Except Fault α := Fault.stop (.refused r)

/-- The digits of an integer. -/
def written (n : Int) : Except Fault String :=
  if IsWritable n then .ok (toString n) else .error .tooManyDigits

end Conveyor
