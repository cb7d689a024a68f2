-- SUMMARY: Driving a factory: queries, buffers, balancing, reports, and passing time.
import Conveyor.Factory.Basic

/-!
# Commands

The commands look their names up first, then check their figures, and only then change anything.
Streams also take commands by the name of a method.
-/

namespace Conveyor

/-- The realized rates of some outputs of a stream. -/
structure StreamReport where
  name : String
  mult : Int
  rates : Table String Rate

/-- The report as lines: a heading, then one line per product. -/
def StreamReport.lines (r : StreamReport) : Except Fault (List String) := do
  let mult ← written r.mult
  let heading := "----- " ++ r.name ++ " x" ++ mult ++ " -----"
  let rates ← r.rates.entries.mapM fun (product, rate) => do
    let text ← rate.text
    return "  " ++ product ++ " @ " ++ text
  return heading :: rates

/-- A raise of a stream's multiplier, by name. -/
structure NamedChange where
  stream : String
  old : Int
  new : Int
deriving DecidableEq, Repr

/-- What a command by method name answers. -/
inductive Answer
  | done
  | changes (changes : List NamedChange)
  | report (report : StreamReport)

namespace Factory

/-! ## Queries -/

def efficiency (f : Factory) (stream : String) : Except Fault Float := do
  f.arena.efficiency (← f.streamIndex stream)

def rateOf (f : Factory) (stream product : String) : Except Fault (Option Rate) := do
  let index ← f.streamIndex stream
  f.arena.rateOf index (← f.product product)

/-- The products that a report is asked for, by name: the given ones, or all outputs. -/
def reportedProducts (f : Factory) (s : Stream) (products : List String) :
    Except Fault (List (String × Product)) :=
  if products.isEmpty then
    s.recipe.outputTotals.keys.mapM fun p => return (← f.productName p, p)
  else products.mapM fun name => return (name, ← f.product name)

/-- Report the realized output rates of a stream. -/
def report (f : Factory) (stream : String) (products : List String := []) :
    Except Fault StreamReport := do
  let index ← f.streamIndex stream
  let s ← f.arena.stream index
  let wanted ← f.reportedProducts s products
  let rates ← wanted.foldlM (fun rates (name, p) => do
    match ← f.arena.rateOf index p with
    | some rate => return rates.insert name rate
    | none => Refusal.fail (.notProduced stream name)) ∅
  return ⟨stream, s.mult, rates⟩

/-! ## Commands -/

/-- Set the capacity of a buffer; stock above it is discarded. -/
def setBuffer (stream product : String) (capacity : Value) : Action Factory Unit := do
  let f ← Action.current
  let index ← f.streamIndex stream
  let s ← f.arena.stream index
  let p ← f.product product
  let capacity ← requireInt .bufferCapacity (some stream) 0 capacity
  match s.buffers.get? p with
  | none => Refusal.fail (.noBuffer stream product)
  | some b =>
    Action.assign { f with
      arena := f.arena.modify index fun s =>
        { s with buffers := s.buffers.insert p (b.resize capacity) } }
    if b.spill capacity ≠ 0 then
      Action.report (.discarded (b.spill capacity) product stream)

/-- Balance the supply chain behind a stream. -/
def solve (stream : String) : Action Factory (List NamedChange) := do
  let f ← Action.current
  let index ← f.streamIndex stream
  let changes ← onArena (Arena.solve index f.config.epsilon)
  changes.mapM fun c => do
    let name ← f.streamName c.stream
    return ⟨name, c.old, c.new⟩

/-- Advance every stream by so many ticks. -/
def tick (ticks : Value) : Action Factory (List StreamTick) := do
  let n ← requireInt .tickCount none 0 ticks
  let f ← Action.current
  onArena (Arena.tick n f.config.tickOrder f.config.bufferMultiplier)

/-- What a stream produced, by product names. -/
def producedByName (f : Factory) (t : StreamTick) : Except Fault (List (String × Int)) :=
  t.produced.entries.mapM fun (p, units) => return (← f.productName p, units)

/-- The texts among some values, if they are all texts. -/
def texts? : List Value → Option (List String)
  | [] => some []
  | .text s :: vs => (texts? vs).map (s :: ·)
  | _ :: _ => none

/-- Run the command of a stream that goes by the name of a method. -/
def call (stream method : String) (args : List Value) : Action Factory Answer := do
  if method = "buffer" then
    match args with
    | [.text product, capacity] =>
      setBuffer stream product capacity
      return .done
    | _ => Refusal.fail (.bufferArguments stream)
  else if method = "solve" then
    if args.isEmpty then return .changes (← solve stream)
    else Refusal.fail (.solveArguments stream)
  else if method = "log" then
    match texts? args with
    | some products =>
      let f ← Action.current
      return .report (← f.report stream products)
    | none => Refusal.fail (.logArguments stream)
  else Refusal.fail (.noMethod stream method)

end Factory

end Conveyor
