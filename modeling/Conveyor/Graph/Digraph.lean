-- SUMMARY: Directed graphs on numbered vertices: depth-first order, reachability and mutual reachability.

/-!
# Directed graphs

A search that follows links and never enters a vertex of its own path ends, because every step takes
one more of finitely many vertices onto the path. A depth-first search from all vertices in turn
lists every vertex after the vertices that it leads to, as far as the graph allows: on a graph
without cycles each vertex comes after all its successors. A successor may be no vertex of the
graph; it then leads nowhere.
-/

namespace Conveyor

/-! ## Paths -/

namespace Path

/-- How many of the vertices below `n` are not on the path. -/
def remaining (n : Nat) (path : List Nat) : Nat :=
  ((List.range n).filter (· ∉ path)).length

theorem remaining_cons_lt {n : Nat} {path : List Nat} {i : Nat} (hi : i < n) (hp : i ∉ path) :
    remaining n (i :: path) < remaining n path := by
  have hsplit : (List.range n).filter (· ∉ i :: path)
      = ((List.range n).filter (· ∉ path)).filter (· ≠ i) := by
    rw [List.filter_filter]
    apply List.filter_congr
    intro j _
    simp only [List.mem_cons, not_or, Bool.decide_and]
  rw [remaining, hsplit]
  apply List.length_filter_lt_length_iff_exists.2
  exact ⟨i, List.mem_filter.2 ⟨List.mem_range.2 hi, by simpa using hp⟩, by simp⟩

/-- A path holds at most all vertices, so at most `n` searches are under way at once. -/
theorem remaining_le (n : Nat) (path : List Nat) : remaining n path ≤ n := by
  simpa [remaining] using List.length_filter_le (fun j => decide (j ∉ path)) (List.range n)

end Path

/-! ## Searches -/

/-- The vertices are the numbers below `size`; `next` lists the successors of a vertex. -/
structure Digraph where
  size : Nat
  next : Nat → List Nat

namespace Digraph

/-- List `v` and what can be reached from it behind what is `done`, each after its successors. The
vertices on `path` are being searched. -/
def visit (g : Digraph) (path done : List Nat) (v : Nat) : List Nat :=
  if v ∈ done then done
  else if _hp : v ∈ path then done
  else if _hv : v < g.size then (g.next v).foldl (g.visit (v :: path)) done ++ [v]
  else done ++ [v]
termination_by Path.remaining g.size path
decreasing_by
  exact Path.remaining_cons_lt _hv _hp

/-- All vertices, and the successors that are none, in the order in which a depth-first search
leaves them. -/
def postorder (g : Digraph) : List Nat :=
  (List.range g.size).foldl (g.visit []) []

/-- What can be reached from a vertex in one step or more. -/
def reachable (g : Digraph) (v : Nat) : List Nat :=
  if v < g.size then (g.next v).foldl (g.visit []) [] else []

/-- The vertices that lie on a cycle with `v`, in ascending order. -/
def circle (g : Digraph) (v : Nat) : List Nat :=
  let ahead := g.reachable v
  if v ∈ ahead then (List.range g.size).filter fun w => w ∈ ahead && v ∈ g.reachable w
  else []

/-- The vertices that the search leaves after all others of their circle. -/
def lastOfCircle (g : Digraph) : List Nat → List Nat
  | [] => []
  | v :: vs =>
    let ahead := g.reachable v
    if vs.any fun w => w ∈ ahead && v ∈ g.reachable w then g.lastOfCircle vs
    else v :: g.lastOfCircle vs

end Digraph

end Conveyor
