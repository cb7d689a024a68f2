-- SUMMARY: The supply graph of a factory as a drawing, suppliers to the left of their consumers.
import Conveyor.Dot
import Conveyor.Factory.Basic

/-!
# Supply diagrams

One node per stream shows its name, its multiplier and its efficiency; leaves are green, named
streams blue. One edge per input slot shows the product and its realized rate, in red where the
supplier does not make the product.
-/

namespace Conveyor.Factory

/-- The identifier of a stream's node. -/
def nodeName (index : Nat) : String := "Stream_" ++ toString index

def nodeColor (f : Factory) (index : Nat) (s : Stream) : String :=
  if s.isLeaf then "lightgreen"
  else if f.streams.values.contains index then "lightblue"
  else "white"

/-- The node of stream `s`. -/
def nodeStatement (f : Factory) (index : Nat) (s : Stream) : Except Fault Dot.Statement := do
  let efficiency ← f.arena.efficiency index
  let name ← f.streamName index
  let mult ← written s.mult
  let label := name ++ " x" ++ mult ++ "\n" ++ Decimal.percent efficiency
  return .node (nodeName index)
    [⟨"label", label⟩, ⟨"fillcolor", f.nodeColor index s⟩, ⟨"shape", "box"⟩, ⟨"style", "filled"⟩]

/-- The edge of one input slot. -/
def edgeStatement (f : Factory) (index : Nat) (slot : Slot) : Except Fault Dot.Statement := do
  let rate ← f.arena.rateOf slot.supplier slot.product
  let name ← f.productName slot.product
  let (label, color) ← match rate with
    | some rate => do
      let text ← rate.text
      pure (name ++ "\n" ++ text, "black")
    | none => pure (name, "red")
  return .edge (nodeName slot.supplier) (nodeName index) [⟨"label", label⟩, ⟨"color", color⟩]

/-- The supply graph. -/
def diagram (f : Factory) : Except Fault Dot.Drawing := do
  let indexed := f.arena.streams.zipIdx
  let nodes ← indexed.mapM fun (s, index) => f.nodeStatement index s
  let edges ← indexed.mapM fun (s, index) => s.inputs.mapM (f.edgeStatement index)
  return ⟨.setting ⟨"rankdir", "LR"⟩ :: nodes ++ edges.flatten⟩

end Conveyor.Factory
