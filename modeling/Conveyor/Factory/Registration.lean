-- SUMMARY: Registering products, recipes and streams by name.
import Conveyor.Factory.Basic

/-!
# Registration

A registration that is refused leaves the factory as it was. The definition of a stream is a recipe
call; the calls among its arguments become streams of their own, arguments before the call, from
left to right.
-/

namespace Conveyor.Factory

/-! ## Products and recipes -/

/-- Register a new product in a module; the module is registered with it if need be. -/
def registerProduct (name : String) (module : String := ModuleRegistry.defaultModule) :
    Action Factory Product := do
  let f ← Action.current
  if f.products.contains name then Refusal.fail (.duplicate .product name)
  else
    let (number, modules) := f.modules.number module
    let (product, productIds) := f.productIds.create number
    Action.assign { f with
      modules
      productIds
      products := f.products.insert name product
      productNames := f.productNames.insert product name }
    Action.report (.registeredProduct name product)
    return product

/-- The part of a recipe that a value stands for: the name of a product is one unit of it. -/
def part (f : Factory) (owner : String) : Value → Except Fault Part
  | .text name => do
    let product ← f.product name
    return ⟨product, 1⟩
  | .part product amount => do
    let amount ← requireInt .partAmount (some owner) 1 amount
    let product ← resolve .product f.products product
    return ⟨product, amount⟩
  | value => Refusal.fail (.notAPart value owner)

/-- The parts that the items of a value stand for. -/
def parts (f : Factory) (owner : String) (value : Value) : Except Fault (List Part) :=
  match value.items? with
  | some items => items.mapM (f.part owner)
  | none => .error .unsupported

/-- Register a recipe that turns its inputs into its outputs every `period` ticks. -/
def registerRecipe (name : String) (inputs outputs period : Value) : Action Factory Recipe := do
  let f ← Action.current
  if f.recipes.contains name then Refusal.fail (.duplicate .recipe name)
  else
    let inputs ← f.parts name inputs
    let outputs ← f.parts name outputs
    let ticks ← requireInt .period (some name) 1 period
    let recipe ← Recipe.ofPeriod (.int ticks) inputs outputs
    Action.assign { f with recipes := f.recipes.insert name recipe }
    Action.report (.registeredRecipe name ticks)
    return recipe

/-! ## Streams -/

/-- A refusal that does not know its owner is passed on as one about `owner`. -/
def ownedBy {α : Type} (owner : String) : Except Fault α → Except Fault α
  | .error (.refused r) => .error (.refused (r.withOwner owner))
  | result => result

/-- Append a stream to the arena and label it with its recipe and index. -/
def append (owner recipeName : String) (recipe : Recipe) (bindings : List (Product × Nat))
    (mult : Int) : Action Factory Nat := do
  let f ← Action.current
  let (index, arena) ← ownedBy owner <| f.arena.add recipe
    (bindings.map fun (p, i) => (p, (i : Int))) mult f.config.bufferMultiplier
  Action.assign { f with
    arena
    labels := f.labels ++ [recipeName ++ "#" ++ toString index] }
  return index

mutual

/-- The index of the stream that a value refers to, built first if the value is a recipe call. -/
def bind (owner : String) : Value → Action Factory Nat
  | .stream name => do
    let f ← Action.current
    resolve .stream f.streams name
  | .call name args mult => do
    let f ← Action.current
    let recipe ← resolve .recipe f.recipes name
    let mult ← requireInt .multiplier (some owner) 1 mult
    if args.length ≠ recipe.inputs.length then
      Refusal.fail (.argumentCount name.label recipe.inputs.length args.length owner)
    else
      let bindings ← bindAll owner (recipe.inputs.map Part.product) args
      append owner name.label recipe bindings mult
  | value => Refusal.fail (.notABinding value owner)

/-- Bind one product after another to what its argument refers to. -/
def bindAll (owner : String) : List Product → List Value → Action Factory (List (Product × Nat))
  | p :: ps, value :: values => do
    let index ← bind owner value
    let rest ← bindAll owner ps values
    return (p, index) :: rest
  | _, _ => return []

end

/-- Forget the streams and the labels from an index on. -/
def truncate (f : Factory) (length : Nat) : Factory :=
  { f with
    arena := f.arena.truncate length
    labels := f.labels.take length }

/-- Run an action and forget the streams that it appended if it is refused. Any other fault leaves
them. -/
def undoingStreams {α : Type} (act : Action Factory α) : Action Factory α := fun s =>
  match act s with
  | .error (.refused r) t =>
    .error (.refused r) { t with state := t.state.truncate s.state.arena.size }
  | result => result

/-- Register a stream that is defined by a recipe call. -/
def registerStream (name : String) (definition : Value) : Action Factory Nat := do
  let f ← Action.current
  if f.streams.contains name then Refusal.fail (.duplicate .stream name)
  else
    match definition with
    | .call .. =>
      let index ← undoingStreams (bind name definition)
      Action.update fun f => { f with
        streams := f.streams.insert name index
        labels := f.labels.set index name }
      Action.report (.registeredStream name index)
      return index
    | _ => Refusal.fail (.notACall name definition)

end Conveyor.Factory
