-- SUMMARY: Reports and drawings see recipes, bindings and multipliers, whatever the streams have in stock.
import Conveyor.Factory.Commands
import Conveyor.Factory.Diagram
import Conveyor.Proofs.Efficiency.Upstream

/-!
# What reports and drawings see

A report tells of rates and a drawing of efficiencies besides; both ask queries only and look names up. So
they are the same for two factories whose streams differ in stock, capacities and countdowns.
-/

namespace Conveyor

namespace Arena

variable {a b : Arena} {i : Nat} {α : Type}

theorem AlikeAt.stream_bind (h : a.AlikeAt b i) {k l : Stream → Except Fault α}
    (hk : ∀ s t, s.Alike t → k s = l t) : (a.stream i >>= k) = (b.stream i >>= l) := by
  unfold AlikeAt at h
  unfold stream
  revert h
  cases a.stream? i with
  | none =>
    cases b.stream? i with
    | none => exact fun _ => rfl
    | some t => exact fun h => nomatch h
  | some s =>
    cases b.stream? i with
    | none => exact fun h => nomatch h
    | some t =>
      rintro ⟨hst⟩
      exact hk s t hst

/-- The streams with their indices, side by side. -/
theorem Alike.zipIdx (h : a.Alike b) :
    List.Forall₂ (fun x y => x.1.Alike y.1 ∧ x.2 = y.2) a.streams.zipIdx b.streams.zipIdx := by
  have hstreams := h.forall₂
  generalize a.streams = xs, b.streams = ys, 0 = first at hstreams ⊢
  induction hstreams generalizing first with
  | nil => exact .nil
  | cons hst _ ih => exact .cons ⟨hst, rfl⟩ (ih (first + 1))

end Arena

namespace Factory

variable {f : Factory} {arena : Arena}

/-- A report is the same on an arena where queries see no difference. -/
theorem report_eq_of_alike (h : f.arena.Alike arena) (stream : String) (products : List String) :
    f.report stream products = { f with arena }.report stream products := by
  refine bind_congr fun i => (h i).stream_bind fun s t hst => ?_
  have hwanted : f.reportedProducts s products = { f with arena }.reportedProducts t products := by
    rw [reportedProducts, reportedProducts, hst.recipe]
    rfl
  have hrate (p : Product) : f.arena.rateOf i p = arena.rateOf i p := ((h.answersAlike i).2 p).1
  rw [hwanted, hst.mult]
  simp only [hrate]

theorem nodeStatement_eq_of_alike (h : f.arena.Alike arena) (i : Nat) {s t : Stream} (hst : s.Alike t) :
    f.nodeStatement i s = { f with arena }.nodeStatement i t := by
  have hcolor : { f with arena }.nodeColor i t = f.nodeColor i s := by
    rw [nodeColor, nodeColor, Stream.isLeaf, hst.inputs]
    rfl
  rw [nodeStatement, nodeStatement, (h.answersAlike i).1, hcolor, hst.mult]
  rfl

theorem edgeStatement_eq_of_alike (h : f.arena.Alike arena) (i : Nat) (slot : Slot) :
    f.edgeStatement i slot = { f with arena }.edgeStatement i slot := by
  rw [edgeStatement, edgeStatement, ((h.answersAlike slot.supplier).2 slot.product).1]
  rfl

/-- So is the drawing. -/
theorem diagram_eq_of_alike (h : f.arena.Alike arena) : f.diagram = { f with arena }.diagram := by
  have hnodes : f.arena.streams.zipIdx.mapM (fun e => f.nodeStatement e.2 e.1) =
      arena.streams.zipIdx.mapM fun e => { f with arena }.nodeStatement e.2 e.1 :=
    Result.mapM_congr (h.zipIdx.imp fun _ _ hxy => hxy.2 ▸ nodeStatement_eq_of_alike h _ hxy.1)
  have hedges : f.arena.streams.zipIdx.mapM (fun e => e.1.inputs.mapM (f.edgeStatement e.2)) =
      arena.streams.zipIdx.mapM fun e => e.1.inputs.mapM ({ f with arena }.edgeStatement e.2) := by
    refine Result.mapM_congr (h.zipIdx.imp fun x y hxy => ?_)
    rw [hxy.1.inputs, hxy.2, funext (edgeStatement_eq_of_alike h y.2)]
  change (f.arena.streams.zipIdx.mapM (fun e => f.nodeStatement e.2 e.1) >>= fun nodes =>
    f.arena.streams.zipIdx.mapM (fun e => e.1.inputs.mapM (f.edgeStatement e.2)) >>= _) = _
  rw [hnodes, hedges]
  rfl

end Factory

end Conveyor
