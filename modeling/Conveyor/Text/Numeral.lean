-- SUMMARY: Whole numbers as people write them: a sign, digits of any script, single underscores between digits.
import Conveyor.Text.Split

/-!
# Numerals

A whole number is an optional sign and decimal digits, which may come from any script and may be
mixed. A single underscore may stand between two digits. Integers are unbounded, their texts are
not: neither a numeral that is read nor a figure that is written has more than so many digits.
-/

namespace Conveyor

/-- The most digits that an integer is read or written with. -/
def digitLimit : Nat := 4300

/-- The integer has few enough digits to be written. -/
def IsWritable (n : Int) : Prop := n.natAbs < Nat.pow 10 digitLimit

instance : DecidablePred IsWritable := fun n =>
  inferInstanceAs (Decidable (n.natAbs < Nat.pow 10 digitLimit))

namespace Text

/-! ## Digits -/

/-- Code points of the digit zero of every script; the digits one to nine follow each of them. -/
def zeroDigits : List Nat :=
  [0x0030, 0x0660, 0x06f0, 0x07c0, 0x0966, 0x09e6, 0x0a66, 0x0ae6, 0x0b66, 0x0be6, 0x0c66, 0x0ce6,
   0x0d66, 0x0de6, 0x0e50, 0x0ed0, 0x0f20, 0x1040, 0x1090, 0x17e0, 0x1810, 0x1946, 0x19d0, 0x1a80,
   0x1a90, 0x1b50, 0x1bb0, 0x1c40, 0x1c50, 0xa620, 0xa8d0, 0xa900, 0xa9d0, 0xa9f0, 0xaa50, 0xabf0,
   0xff10, 0x104a0, 0x10d30, 0x11066, 0x110f0, 0x11136, 0x111d0, 0x112f0, 0x11450, 0x114d0, 0x11650,
   0x116c0, 0x11730, 0x118e0, 0x11950, 0x11c50, 0x11d50, 0x11da0, 0x16a60, 0x16ac0, 0x16b50,
   0x1d7ce, 0x1d7d8, 0x1d7e2, 0x1d7ec, 0x1d7f6, 0x1e140, 0x1e2f0, 0x1e950, 0x1fbf0]

/-- The value of a decimal digit. -/
def digitValue? (c : Char) : Option Nat :=
  (zeroDigits.find? fun z => z ≤ c.toNat && c.toNat < z + 10).map (c.toNat - ·)

/-! ## Numerals -/

namespace Numeral

mutual

/-- The values of the digits, where a digit has to come next. -/
def digits? : List Char → Option (List Nat)
  | [] => none
  | c :: cs => do
    let d ← digitValue? c
    let ds ← moreDigits? cs
    return d :: ds

/-- The values of the digits after a first one, underscores left out. -/
def moreDigits? : List Char → Option (List Nat)
  | [] => some []
  | '_' :: cs => digits? cs
  | c :: cs => do
    let d ← digitValue? c
    let ds ← moreDigits? cs
    return d :: ds

end

/-- The number that a row of digits stands for. -/
def value (ds : List Nat) : Nat :=
  ds.foldl (fun n d => 10 * n + d) 0

/-- Read an unsigned numeral. -/
def natural? (cs : List Char) : Option Nat := do
  let ds ← digits? cs
  if ds.length ≤ digitLimit then some (value ds) else none

/-- Read a numeral with its optional sign. -/
def signed? : List Char → Option Int
  | '+' :: cs => (natural? cs).map fun n => (n : Int)
  | '-' :: cs => (natural? cs).map fun n => -(n : Int)
  | cs => (natural? cs).map fun n => (n : Int)

/-- The white space that may surround a numeral: all but the information separators. -/
def isMargin (c : Char) : Bool :=
  isBlank c && !(0x1c ≤ c.toNat && c.toNat ≤ 0x1f)

/-- Read a numeral and the white space around it. -/
def parse? (cs : List Char) : Option Int :=
  signed? (trimBy isMargin cs)

end Numeral

end Text

end Conveyor
