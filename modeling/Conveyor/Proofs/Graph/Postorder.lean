-- SUMMARY: A depth-first search leaves every vertex exactly once.
import Conveyor.Graph.Digraph
import Mathlib.Data.List.Nodup

/-!
# What a search lists

A search adds to what is done, never takes anything away, lists nothing twice, and does not enter
the vertices on its path. The last is what lets a vertex be listed behind all that its own search
has found.
-/

namespace Conveyor.Digraph

/-- More is done than before, nothing twice, and nothing on the path is new. -/
structure Extends (path before after : List Nat) : Prop where
  subset : before ⊆ after
  avoids : ∀ x ∈ path, x ∈ after → x ∈ before
  nodup : before.Nodup → after.Nodup

namespace Extends

variable {path before between after : List Nat}

theorem refl (path before : List Nat) : Extends path before before :=
  ⟨List.Subset.refl _, fun _ _ hx => hx, id⟩

theorem trans (h : Extends path before between) (h' : Extends path between after) :
    Extends path before after where
  subset _ hx := h'.subset (h.subset hx)
  avoids x hp hx := h.avoids x hp (h'.avoids x hp hx)
  nodup := h'.nodup ∘ h.nodup

/-- A shorter path forbids less. -/
theorem weaken {v : Nat} (h : Extends (v :: path) before after) : Extends path before after where
  subset := h.subset
  avoids x hp := h.avoids x (List.mem_cons_of_mem _ hp)
  nodup := h.nodup

/-- A vertex that is neither done nor on the path is listed last. -/
theorem snoc {v : Nat} (hpath : v ∉ path) (hdone : v ∉ before) :
    Extends path before (before ++ [v]) where
  subset := List.subset_append_left _ _
  avoids x hp hx := by
    cases List.mem_append.1 hx with
    | inl hx => exact hx
    | inr hx => exact absurd (List.mem_singleton.1 hx ▸ hp) hpath
  nodup h := h.append (List.nodup_singleton v) (by simpa using hdone)

theorem foldl {step : List Nat → Nat → List Nat} (h : ∀ done w, Extends path done (step done w))
    (ws : List Nat) (done : List Nat) : Extends path done (ws.foldl step done) := by
  induction ws generalizing done with
  | nil => exact refl path done
  | cons w ws ih => exact (h done w).trans (ih (step done w))

end Extends

variable {g : Digraph}

theorem visit_extends (path done : List Nat) (v : Nat) : Extends path done (g.visit path done v) := by
  induction path, done, v using visit.induct g with
  | case1 path done v hdone =>
    rw [visit, if_pos hdone]
    exact Extends.refl path done
  | case2 path done v hdone hpath =>
    rw [visit, if_neg hdone, dif_pos hpath]
    exact Extends.refl path done
  | case3 path done v hdone hpath hv ih =>
    rw [visit, if_neg hdone, dif_neg hpath, dif_pos hv]
    have hbelow := Extends.foldl ih (g.next v) done
    refine hbelow.weaken.trans (Extends.snoc hpath ?_)
    exact fun hmem => hdone (hbelow.avoids v List.mem_cons_self hmem)
  | case4 path done v hdone hpath hv =>
    rw [visit, if_neg hdone, dif_neg hpath, dif_neg hv]
    exact Extends.snoc hpath hdone

/-- A vertex is done after its search, unless the search came from it. -/
theorem mem_visit {path : List Nat} {v : Nat} (done : List Nat) (hpath : v ∉ path) :
    v ∈ g.visit path done v := by
  rw [visit, dif_neg hpath]
  split
  · assumption
  · split <;> exact List.mem_append_right _ (List.mem_singleton_self v)

/-! ## All vertices -/

theorem nodup_postorder : g.postorder.Nodup :=
  (Extends.foldl (visit_extends []) (List.range g.size) []).nodup List.nodup_nil

theorem mem_foldl_visit {path ws done : List Nat} {v : Nat} (hv : v ∈ ws) (hpath : v ∉ path) :
    v ∈ ws.foldl (g.visit path) done := by
  induction ws generalizing done with
  | nil => cases hv
  | cons w ws ih =>
    cases hv with
    | head => exact (Extends.foldl (visit_extends path) ws _).subset (mem_visit done hpath)
    | tail _ hv => exact ih hv

theorem mem_postorder {v : Nat} (hv : v < g.size) : v ∈ g.postorder :=
  mem_foldl_visit (List.mem_range.2 hv) List.not_mem_nil

/-- If a search finds vertices only, it lists each of them once. -/
theorem postorder_perm (h : ∀ v ∈ g.postorder, v < g.size) :
    g.postorder.Perm (List.range g.size) := by
  rw [List.perm_ext_iff_of_nodup nodup_postorder List.nodup_range]
  exact fun v => ⟨fun hv => List.mem_range.2 (h v hv), fun hv => mem_postorder (List.mem_range.1 hv)⟩

/-- What is no vertex leads nowhere, so it lies on no circle. -/
theorem mem_lastOfCircle {v : Nat} (hv : g.size ≤ v) {order : List Nat} (hmem : v ∈ order) :
    v ∈ g.lastOfCircle order := by
  have hreach : g.reachable v = [] := if_neg (Nat.not_lt.2 hv)
  induction order with
  | nil => cases hmem
  | cons w ws ih =>
    rw [lastOfCircle]
    cases hmem with
    | head => simp [hreach]
    | tail _ hmem =>
      split
      · exact ih hmem
      · exact List.mem_cons_of_mem _ (ih hmem)

theorem lastOfCircle_subset (order : List Nat) : g.lastOfCircle order ⊆ order := by
  induction order with
  | nil => exact List.Subset.refl _
  | cons v vs ih =>
    rw [lastOfCircle]
    split
    · exact List.subset_cons_of_subset v ih
    · exact List.cons_subset_cons v ih

/-! ## Graphs that go down -/

theorem foldl_below {step : List Nat → Nat → List Nat} {ws : List Nat} {b : Nat}
    (h : ∀ done, ∀ w ∈ ws, ∀ x ∈ step done w, x ∈ done ∨ x < b) (done : List Nat) :
    ∀ x ∈ ws.foldl step done, x ∈ done ∨ x < b := by
  induction ws generalizing done with
  | nil => exact fun x hx => .inl hx
  | cons w ws ih =>
    intro x hx
    rcases ih (fun done w hw => h done w (List.mem_cons_of_mem _ hw)) (step done w) x hx with hx | hx
    · exact h done w List.mem_cons_self x hx
    · exact .inr hx

theorem mem_append_le {done before : List Nat} {v : Nat} (h : ∀ x ∈ before, x ∈ done ∨ x < v) :
    ∀ x ∈ before ++ [v], x ∈ done ∨ x ≤ v := by
  intro x hx
  rcases List.mem_append.1 hx with hx | hx
  · exact (h x hx).imp_right Nat.le_of_lt
  · exact .inr (Nat.le_of_eq (List.mem_singleton.1 hx))

/-- Where every step goes down, a search finds nothing above where it starts. -/
theorem mem_visit_le (hdown : ∀ i, ∀ u ∈ g.next i, u < i) (path done : List Nat) (v : Nat) :
    ∀ x ∈ g.visit path done v, x ∈ done ∨ x ≤ v := by
  induction path, done, v using visit.induct g with
  | case1 path done v hdone =>
    rw [visit, if_pos hdone]
    exact fun x hx => .inl hx
  | case2 path done v hdone hpath =>
    rw [visit, if_neg hdone, dif_pos hpath]
    exact fun x hx => .inl hx
  | case3 path done v hdone hpath hv ih =>
    rw [visit, if_neg hdone, dif_neg hpath, dif_pos hv]
    refine mem_append_le (foldl_below (fun done w hw x hx => ?_) done)
    exact (ih done w x hx).imp_right fun hle => Nat.lt_of_le_of_lt hle (hdown v w hw)
  | case4 path done v hdone hpath hv =>
    rw [visit, if_neg hdone, dif_neg hpath, dif_neg hv]
    exact mem_append_le fun x hx => .inl hx

theorem lt_of_mem_reachable (hdown : ∀ i, ∀ u ∈ g.next i, u < i) {v x : Nat}
    (hx : x ∈ g.reachable v) : x < v := by
  unfold reachable at hx
  split at hx
  · refine (foldl_below (fun done w hw x hx => ?_) [] x hx).resolve_left List.not_mem_nil
    exact (mem_visit_le hdown [] done w x hx).imp_right fun hle => Nat.lt_of_le_of_lt hle (hdown v w hw)
  · cases hx

theorem foldl_visit_of_subset {path done ws : List Nat} (h : ws ⊆ done) :
    ws.foldl (g.visit path) done = done := by
  induction ws with
  | nil => rfl
  | cons w ws ih =>
    obtain ⟨hw, hws⟩ := List.cons_subset.1 h
    rw [List.foldl_cons, visit, if_pos hw]
    exact ih hws

/-- Where every step goes down, everything that a vertex leads to is done before its turn comes. -/
theorem postorder_eq_range (hdown : ∀ i, ∀ u ∈ g.next i, u < i) : g.postorder = List.range g.size := by
  have hprefix (n : Nat) (hn : n ≤ g.size) : (List.range n).foldl (g.visit []) [] = List.range n := by
    induction n with
    | zero => rfl
    | succ n ih =>
      have hbelow : g.next n ⊆ List.range n := fun u hu => List.mem_range.2 (hdown n u hu)
      rw [List.range_succ, List.foldl_append, ih (Nat.le_of_succ_le hn), List.foldl_cons, List.foldl_nil,
        visit, if_neg List.not_mem_range_self, dif_neg List.not_mem_nil, dif_pos (Nat.lt_of_succ_le hn),
        foldl_visit_of_subset hbelow]
  exact hprefix g.size (Nat.le_refl _)

end Conveyor.Digraph
