-- SUMMARY: The orders in which the streams of an arena are visited within one tick call.
import Conveyor.Arena
import Conveyor.Graph.Digraph

/-!
# Visiting orders

Within one call every stream sees the buffers of its suppliers as they are when it is visited. With
suppliers first, what they produce can be consumed in the same call; with suppliers last, in the
next call. Both need an arena without cycles. The order of registration needs nothing.
-/

namespace Conveyor

/-- Which streams are advanced first. -/
inductive TickOrder
  | suppliersFirst
  | consumersFirst
  | registration
deriving DecidableEq, Repr, Inhabited

namespace TickOrder

def label : TickOrder → String
  | .suppliersFirst => "upstream"
  | .consumersFirst => "downstream"
  | .registration => "registration"

/-- All orders; the first is used unless another is asked for. -/
def all : List TickOrder := [.suppliersFirst, .consumersFirst, .registration]

def ofLabel? (s : String) : Option TickOrder := all.find? (·.label = s)

/-- The order whose label a value is. -/
def ofValue (v : Value) : Except Fault TickOrder :=
  match v with
  | .text s =>
    match ofLabel? s with
    | some order => .ok order
    | none => Fault.stop (.notAnOrder v)
  | _ => Fault.stop (.notAnOrder v)

end TickOrder

namespace Arena

/-- Each stream leads to its suppliers. -/
def supplyGraph (a : Arena) : Digraph where
  size := a.size
  next i := ((a.stream? i).map Stream.suppliers).getD []

/-- The order of a search of the supply graph is one of suppliers first, unless a vertex of it lies
on a cycle or is no stream. -/
def checkAcyclic (a : Arena) (order : List Nat) : Except Fault Unit :=
  (a.supplyGraph.lastOfCircle order).forM fun v =>
    if a.size ≤ v then .error .noSuchKey
    else
      match a.supplyGraph.circle v with
      | [] => .ok ()
      | circle => Refusal.fail (.supplyEachOther circle)

/-- The indices of all streams in the order in which `tick` advances them. -/
def visitOrder (a : Arena) (order : TickOrder := .suppliersFirst) : Except Fault (List Nat) := do
  match order with
  | .registration => return List.range a.size
  | .suppliersFirst =>
    let indices := a.supplyGraph.postorder
    a.checkAcyclic indices
    return indices
  | .consumersFirst =>
    let indices := a.supplyGraph.postorder
    a.checkAcyclic indices
    return indices.reverse

end Arena

end Conveyor
