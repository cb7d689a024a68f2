-- SUMMARY: A small production chain for electronic circuits to experiment with.
import Conveyor.Factory.Commands
import Conveyor.Factory.Registration

/-!
# Demo factory

Iron plates come from a smelter with a mine of its own, copper cables from a cable maker with a
smelter and a mine, and circuits from both. Every stream starts at one copy, so circuits are limited
by their supply.
-/

namespace Conveyor.Demo

def products : List String :=
  ["Iron Ore", "Copper Ore", "Iron Plate", "Copper Plate", "Copper Cable", "Electronic Circuit"]

/-- A recipe by name: inputs, outputs, and ticks per cycle. -/
structure RecipeEntry where
  name : String
  inputs : List Value
  outputs : List Value
  period : Int

/-- So many units of a product. -/
def units (product : String) (amount : Int) : Value := .part (.text product) (.int amount)

def recipes : List RecipeEntry :=
  [⟨"iron_mining", [], [.text "Iron Ore"], 2⟩,
   ⟨"copper_mining", [], [.text "Copper Ore"], 2⟩,
   ⟨"iron_smelting", [.text "Iron Ore"], [.text "Iron Plate"], 4⟩,
   ⟨"copper_smelting", [.text "Copper Ore"], [.text "Copper Plate"], 4⟩,
   ⟨"copper_cable", [.text "Copper Plate"], [units "Copper Cable" 2], 1⟩,
   ⟨"electronic_circuit", [.text "Iron Plate", units "Copper Cable" 3],
     [.text "Electronic Circuit"], 2⟩]

/-- A single copy of a recipe on its arguments. -/
def run (recipe : String) (args : List Value) : Value := .call (.text recipe) args (.int 1)

def streams : List (String × Value) :=
  [("ironPlates", run "iron_smelting" [run "iron_mining" []]),
   ("copperCables", run "copper_cable" [run "copper_smelting" [run "copper_mining" []]]),
   ("greenChips", run "electronic_circuit"
     [.stream (.text "ironPlates"), .stream (.text "copperCables")])]

/-- Register everything in an empty factory. -/
def build : Action Factory Unit := do
  products.forM fun name => discard (Factory.registerProduct name)
  recipes.forM fun r => discard
    (Factory.registerRecipe r.name (.list r.inputs) (.list r.outputs) (.int r.period))
  streams.forM fun (name, definition) => discard (Factory.registerStream name definition)

/-- The demo factory, and what was reported while it was built. -/
def factory (config : Config := {}) : Logged Factory :=
  build.final (.empty config)

/-- How well circuits are made, in percent. -/
def efficiencyLine : Action Factory String := do
  let f ← Action.current
  let efficiency ← f.efficiency "greenChips"
  return "Green chips working at " ++ Decimal.fixed 1 (efficiency * 100.0) ++ "% efficiency"

/-- A raise as a line. -/
def changeLine (c : NamedChange) : String :=
  "Scaled " ++ c.stream ++ " from x" ++ toString c.old ++ " to x" ++ toString c.new

/-- Show how well circuits are made, balance their supply, and show it again. -/
def tour : Action Factory (List String) := do
  build
  let before ← efficiencyLine
  let changes ← Factory.solve "greenChips"
  let after ← efficiencyLine
  return before :: changes.map changeLine ++ [after]

end Conveyor.Demo
