-- SUMMARY: Factories: an arena with names for its products, recipes and streams, and the look-ups by name.
import Conveyor.Arena.Balance
import Conveyor.Arena.Simulation

/-!
# Factories

A factory gives names to products, recipes and streams. Only registered streams have names of their
own; the streams that were built on the way to one are labelled with their recipe and index.
-/

namespace Conveyor

/-- What can be tuned per factory. -/
structure Config where
  bufferMultiplier : Int := defaultBufferMultiplier
  tickOrder : TickOrder := .suppliersFirst
  epsilon : Float := defaultEpsilon
deriving Inhabited

/-- An arena and the names around it. -/
structure Factory where
  config : Config := {}
  modules : ModuleRegistry := .initial
  productIds : ProductRegistry := {}
  arena : Arena := {}
  products : Table String Product := ∅
  productNames : Table Product String := ∅
  recipes : Table String Recipe := ∅
  streams : Table String Nat := ∅
  /-- One label per stream of the arena. -/
  labels : List String := []
deriving Inhabited

namespace Factory

/-- A factory without definitions. -/
def empty (config : Config := {}) : Factory := { config }

/-- Run an action on the arena of a factory. -/
def onArena {α : Type} (act : Action Arena α) : Action Factory α :=
  Action.focus Factory.arena (fun arena f => { f with arena }) act

/-! ## Look-ups -/

/-- What a table of definitions holds for a name. A value that is no text names nothing, and one
that holds a list or a record cannot even be looked up. -/
def resolve {α : Type} (sort : Definition) (table : Table String α) (name : Value) :
    Except Fault α :=
  match name with
  | .text s =>
    match table.get? s with
    | some a => .ok a
    | none => Refusal.fail (.unresolved sort name)
  | _ => if name.isKey then Refusal.fail (.unresolved sort name) else .error .unsupported

def product (f : Factory) (name : String) : Except Fault Product :=
  resolve .product f.products (.text name)

def recipe (f : Factory) (name : String) : Except Fault Recipe :=
  resolve .recipe f.recipes (.text name)

/-- The arena index of a registered stream. -/
def streamIndex (f : Factory) (name : String) : Except Fault Nat :=
  resolve .stream f.streams (.text name)

def stream (f : Factory) (name : String) : Except Fault Stream := do
  f.arena.stream (← f.streamIndex name)

/-- The name of a registered stream, the label of any other. -/
def streamName (f : Factory) (index : Nat) : Except Fault String :=
  match f.labels[index]? with
  | some label => .ok label
  | none => .error .noSuchIndex

def productName (f : Factory) (p : Product) : Except Fault String :=
  match f.productNames.get? p with
  | some name => .ok name
  | none => .error .noSuchKey

/-! ## Checks -/

/-- The integer that a value is, if it is one and not below a minimum. -/
def requireInt (quantity : Quantity) (owner : Option String) (minimum : Int) (value : Value) :
    Except Fault Int :=
  match value.int? with
  | none => Refusal.fail (.notAnInteger quantity value owner)
  | some n => if n < minimum then Refusal.fail (.belowMinimum quantity minimum n owner) else .ok n

end Factory

end Conveyor
