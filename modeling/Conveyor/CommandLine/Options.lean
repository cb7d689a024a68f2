-- SUMMARY: The options of the command line and how an argument list is read into them.
import Conveyor.Arena.Order
import Conveyor.Text.Numeral
import Conveyor.Text.Split

/-!
# Options

Every option has a long name, which may be cut short as long as it stays unambiguous, and most have
a short one. A value follows as the next argument, after `=`, or directly behind a short name; short
names without values may be joined, also behind an `=`. A value that is a lone `--` is none: the
option is given, and its value is missing. An argument is first told apart as an option or a plain
word, by its own form alone. What no option takes is left over, which is an error in the end; the
options around it are still carried out, so that `--help` can come first.
-/

namespace Conveyor.CommandLine

open Text

/-- The options. -/
inductive Flag
  | help | solve | buffer | ticks | steps | order | log | graph | verbose
deriving DecidableEq, Repr

namespace Flag

def all : List Flag := [help, solve, buffer, ticks, steps, order, log, graph, verbose]

def long : Flag → String
  | help => "--help"
  | solve => "--solve"
  | buffer => "--buffer"
  | ticks => "--ticks"
  | steps => "--steps"
  | order => "--order"
  | log => "--log"
  | graph => "--graph"
  | verbose => "--verbose"

def short? : Flag → Option String
  | help => some "-h"
  | solve => some "-s"
  | buffer => some "-b"
  | ticks => some "-t"
  | steps => some "-n"
  | order => none
  | log => some "-l"
  | graph => some "-g"
  | verbose => some "-v"

/-- The option needs a value. -/
def takesValue : Flag → Bool
  | help | log | verbose => false
  | _ => true

/-- The option of a full name. -/
def ofName? (name : List Char) : Option Flag :=
  all.find? fun f => f.long.toList = name || f.short?.any fun s => s.toList = name

/-- The options whose long names start with a text. -/
def ofLongPrefix (start : List Char) : List Flag :=
  all.filter fun f => start.isPrefixOf f.long.toList

end Flag

/-- The program stops before it starts: help was asked for, or the arguments are wrong. -/
inductive Exit
  | help
  | usage
deriving DecidableEq, Repr

def Exit.code : Exit → Nat
  | .help => 0
  | .usage => 2

/-! ## Telling arguments apart -/

/-- What an argument is by its form. -/
inductive Token
  | word
  /-- An option, and what is joined to its name. -/
  | option (flag : Flag) (isLong : Bool) (joined : Option (List Char))
  | unknown
deriving DecidableEq, Repr

def isDigit (c : Char) : Bool := (digitValue? c).isSome

/-- A minus sign and digits, with or without a point before the last of them. -/
def isNegativeNumber (arg : List Char) : Bool :=
  let body := if arg.getLast? = some '\n' then arg.dropLast else arg
  match body with
  | '-' :: cs =>
    match cs.dropWhile isDigit with
    | [] => !cs.isEmpty
    | '.' :: rest => !rest.isEmpty && rest.all isDigit
    | _ => false
  | _ => false

/-- What an argument is that starts with a dash and is no full name of an option. -/
def classifyDashed (arg : List Char) : Except Exit Token :=
  let isLong := "--".toList.isPrefixOf arg
  let candidates : List Token :=
    if isLong then
      let (start, joined) := match splitFirst? '=' arg with
        | some (left, right) => (left, some right)
        | none => (arg, none)
      (Flag.ofLongPrefix start).map fun f => .option f true joined
    else
      match Flag.ofName? (arg.take 2) with
      | some f => [.option f false (some (arg.drop 2))]
      | none => []
  match candidates with
  | [token] => .ok token
  | _ :: _ => .error .usage
  | [] => .ok (if isNegativeNumber arg || arg.contains ' ' then .word else .unknown)

/-- What an argument is by its form. -/
def classify (arg : List Char) : Except Exit Token :=
  if arg.head? ≠ some '-' || arg.length = 1 then .ok .word
  else
    match Flag.ofName? arg with
    | some f => .ok (.option f ("--".toList.isPrefixOf arg) none)
    | none =>
      match splitFirst? '=' arg with
      | some (left, right) =>
        match Flag.ofName? left with
        | some f => .ok (.option f ("--".toList.isPrefixOf left) (some right))
        | none => classifyDashed arg
      | none => classifyDashed arg

/-- Arguments with what they are. Behind a lone `--` there are only words, which no option takes;
the separator itself is taken by none either. -/
def classifyAll : List (List Char) → Except Exit (List (List Char × Token))
  | [] => .ok []
  | arg :: args => do
    if arg = "--".toList then return (arg, .unknown) :: args.map fun arg => (arg, .word)
    let token ← classify arg
    let rest ← classifyAll args
    return (arg, token) :: rest

/-! ## Carrying options out -/

/-- What the arguments ask for. A value that is missing was given as a lone `--`. -/
structure Options where
  solve : List (Option String) := []
  buffer : String := ""
  ticks : Option Int := some 0
  steps : Option Int := some 1
  order : Option TickOrder := some .suppliersFirst
  log : Bool := false
  graph : String := ""
  verbose : Bool := false
deriving Repr

/-- The number that a value is. -/
def number (value : List Char) : Except Exit Int :=
  match Numeral.parse? value with
  | some n => .ok n
  | none => .error .usage

namespace Options

/-- Carry out an option that takes no value. -/
def apply (o : Options) : Flag → Except Exit Options
  | .help => .error .help
  | .log => .ok { o with log := true }
  | .verbose => .ok { o with verbose := true }
  | _ => .error .usage

/-- Carry out an option whose value is missing. -/
def applyMissing (o : Options) : Flag → Options
  | .solve => { o with solve := o.solve ++ [none] }
  | .buffer => { o with buffer := "" }
  | .graph => { o with graph := "" }
  | .ticks => { o with ticks := none }
  | .steps => { o with steps := none }
  | .order => { o with order := none }
  | .help | .log | .verbose => o

/-- Carry out an option with its value. -/
def applyValue (o : Options) (flag : Flag) (value : List Char) : Except Exit Options :=
  let text := String.ofList value
  if text = "--" then .ok (o.applyMissing flag)
  else
    match flag with
    | .solve => .ok { o with solve := o.solve ++ [some text] }
    | .buffer => .ok { o with buffer := text }
    | .graph => .ok { o with graph := text }
    | .ticks => (number value).map fun n => { o with ticks := some n }
    | .steps => (number value).map fun n => { o with steps := some n }
    | .order =>
      match TickOrder.ofLabel? text with
      | some order => .ok { o with order := some order }
      | none => .error .usage
    | _ => .error .usage

end Options

/-- The options that one argument stands for: some without a value, then one that may have a value
joined to it. -/
structure Cluster where
  flags : List Flag
  last : Flag
  value : Option (List Char)

/-- The options of an argument with something joined to its first option: up to the first that takes
a value, every character is the short name of one. -/
def Cluster.ofJoined (flag : Flag) (isLong : Bool) : List Char → Except Exit Cluster
  | [] => if flag.takesValue then .ok ⟨[], flag, some []⟩ else .error .usage
  | c :: cs =>
    if flag.takesValue then .ok ⟨[], flag, some (c :: cs)⟩
    else if isLong then .error .usage
    else
      match Flag.ofName? ['-', c], cs with
      | none, _ => .error .usage
      | some next, [] => .ok ⟨[flag], next, none⟩
      | some next, c :: cs =>
        (ofJoined next false (c :: cs)).map fun rest => { rest with flags := flag :: rest.flags }

/-- The options that an argument stands for. -/
def Cluster.of (flag : Flag) (isLong : Bool) : Option (List Char) → Except Exit Cluster
  | none => .ok ⟨[], flag, none⟩
  | some joined => ofJoined flag isLong joined

/-- Carry out the options of an argument list. Says also whether anything was left over. -/
def carryOut : List (List Char × Token) → Options → Bool → Except Exit (Options × Bool)
  | [], o, leftOver => .ok (o, leftOver)
  | (_, .word) :: args, o, _ => carryOut args o true
  | (_, .unknown) :: args, o, _ => carryOut args o true
  | (_, .option flag isLong joined) :: args, o, leftOver => do
    let cluster ← Cluster.of flag isLong joined
    match cluster.value with
    | some value =>
      let o ← cluster.flags.foldlM Options.apply o
      carryOut args (← o.applyValue cluster.last value) leftOver
    | none =>
      if cluster.last.takesValue then
        match args with
        | (value, .word) :: args =>
          let o ← cluster.flags.foldlM Options.apply o
          carryOut args (← o.applyValue cluster.last value) leftOver
        | _ => .error .usage
      else
        let o ← cluster.flags.foldlM Options.apply o
        carryOut args (← o.apply cluster.last) leftOver

/-- Read an argument list. -/
def Options.parse (args : List String) : Except Exit Options := do
  let tokens ← classifyAll (args.map String.toList)
  let (o, leftOver) ← carryOut tokens {} false
  if leftOver then .error .usage else .ok o

end Conveyor.CommandLine
