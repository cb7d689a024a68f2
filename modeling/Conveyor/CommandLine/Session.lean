-- SUMMARY: A session of the command line: the demo factory with what is printed along the way.
import Conveyor.CommandLine.Options
import Conveyor.Demo
import Conveyor.Factory.Diagram
import Conveyor.Setting

/-!
# Sessions

A session sets buffers, balances streams, prints reports, passes time and draws the supply graph, in
this order and as far as its options ask for it. Results go to the output; what is reported on the
way goes to the error channel, and so does the message of a value that is found wrong, which ends
the session with code 1. The drawing, unless it goes to the output, is left to be written.
-/

namespace Conveyor.CommandLine

/-- The factory of a session and what has been printed. -/
structure Console where
  factory : Factory
  verbose : Bool
  output : String := ""
  errors : String := ""
  drawing : Option (String × String) := none

/-- A computation on the console. What is printed before a fault stays. -/
abbrev Session := EStateM Fault Console

namespace Session

def print (line : String) : Session Unit :=
  modify fun c => { c with output := c.output ++ line ++ "\n" }

def printError (line : String) : Session Unit :=
  modify fun c => { c with errors := c.errors ++ line ++ "\n" }

/-- The least level of the events that are shown. -/
def leastLevel (verbose : Bool) : Level := if verbose then .debug else .info

/-- Events as lines. -/
def eventLines (events : List Event) : String :=
  String.join (events.map fun event => event.message ++ "\n")

/-- The console after an action on its factory, with what the action reported. -/
def afterAction (c : Console) (s : Logged Factory) : Console :=
  { c with factory := s.state, errors := c.errors ++ eventLines s.log.toList }

/-- Run an action on the factory and print what it reports, also when it is stopped. -/
def perform {α : Type} (act : Action Factory α) : Session α := fun c =>
  match act { state := c.factory, least := leastLevel c.verbose } with
  | .ok a s => .ok a (afterAction c s)
  | .error f s => .error f (afterAction c s)

/-- Ask the factory. -/
def query {α : Type} (f : Factory → Except Fault α) : Session α :=
  perform do
    let factory ← Action.current
    f factory

/-! ## What the options ask for -/

def setBuffers (text : String) : Session Unit := do
  match Setting.parseList text with
  | .error e => throw (.setting e)
  | .ok settings =>
    settings.forM fun s => perform (Factory.setBuffer s.stream s.product (.int s.capacity))

def solve (stream : String) : Session Unit := do
  let changes ← perform (Factory.solve stream)
  changes.forM fun c => printError (Demo.changeLine c)

/-- Print the rates of every named stream. -/
def printReports : Session Unit := do
  let c ← get
  c.factory.streams.keys.forM fun name => do
    let lines ← query fun f => do (← f.report name).lines
    lines.forM print

/-- What one stream produced, with the state of its buffers. -/
def printTick (t : StreamTick) : Session Unit :=
  t.produced.entries.forM fun (p, units) => do
    if 0 < units then
      let stream ← query (·.streamName t.index)
      let product ← query (·.productName p)
      let units ← written units
      let buffer ← query fun f => f.arena.buffer t.index p
      let held ← buffer.written
      print (stream ++ ": produced " ++ product ++ " x" ++ units ++ " (" ++ held ++ ")")

/-- Pass time in so many steps, counted from `first`. -/
def simulate (ticks : Int) (first : Nat) : Nat → Session Unit
  | 0 => return
  | steps + 1 => do
    print ("=== step " ++ toString first ++ " (+" ++ toString ticks ++ " ticks) ===")
    let reports ← perform (Factory.tick (.int ticks))
    reports.forM printTick
    simulate ticks (first + 1) steps

/-- Draw the supply graph: on the output for `-`, otherwise into a file. -/
def draw (file : String) : Session Unit := do
  let drawing ← query fun f => f.diagram
  if file = "-" then print drawing.text
  else if file.contains '\x00' then throw .unusablePath
  else
    modify fun c => { c with drawing := some (file, drawing.text) }
    printError ("Graphviz written to " ++ file)

/-- A number of ticks or steps, which must be given and not be negative. -/
def amount : Option Int → Except Fault Nat
  | some n => if n < 0 then .error .negativeSteps else .ok n.toNat
  | none => .error .unsupported

/-- The order that was asked for, which must be given. -/
def orderOf : Option TickOrder → Except Fault TickOrder
  | some order => .ok order
  | none => .error (.notAnOrder (.list []))

/-- Everything that the options ask for. -/
def run (o : Options) : Session Unit := do
  let ticks ← amount o.ticks
  let steps ← amount o.steps
  let tickOrder ← orderOf o.order
  modify fun c => { c with factory := .empty { tickOrder } }
  perform Demo.build
  setBuffers o.buffer
  o.solve.forM fun stream =>
    match stream with
    | some stream => solve stream
    | none => throw .unsupported
  if o.log then printReports
  if ticks ≠ 0 then simulate ticks 1 steps
  if o.graph ≠ "" then draw o.graph

end Session

/-! ## Outcomes -/

/-- What a run of the program leaves: its exit code, what it printed, and a file to be written. -/
structure Outcome where
  code : Nat
  output : String
  errors : String
  drawing : Option (String × String)

/-- The files that a run leaves, where `write` tells under which name a path keeps what is written to
it, if it keeps it, or why it takes nothing. -/
def Outcome.filesBy (write : String → Except PathError (Option String)) (o : Outcome) :
    Except Fault (List (String × String)) :=
  match o.drawing with
  | none => .ok []
  | some (path, text) =>
    match write path with
    | .ok name => .ok (name.toList.map fun name => (name, text))
    | .error e => .error (.path e)

/-- What can become of an argument list. -/
inductive Result
  | exit (reason : Exit)
  | finished (outcome : Outcome)
  | failed (fault : Fault)

/-- Run the program on an argument list. -/
def run (args : List String) : Result :=
  match Options.parse args with
  | .error reason => .exit reason
  | .ok o =>
    match Session.run o { factory := .empty, verbose := o.verbose } with
    | .ok () c => .finished ⟨0, c.output, c.errors, c.drawing⟩
    | .error f c =>
      if f.isValueError then
        .finished ⟨1, c.output, c.errors ++ "Error: " ++ f.message ++ "\n", none⟩
      else .failed f

end Conveyor.CommandLine
