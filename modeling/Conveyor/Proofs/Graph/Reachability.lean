-- SUMMARY: What a depth-first search lists is what can be reached, and where a successor comes late the search was still on it.
import Conveyor.Proofs.Graph.Postorder
import Mathlib.Logic.Relation

/-!
# What a search reaches

A search lists what can be reached from where it starts and nothing else. It may list a successor of a
vertex only after the vertex, but then the successor was being searched all the time: everything that is
listed in between can be reached from it. That is the one thing to be known about the order, whatever
circles the graph has.
-/

namespace Conveyor.Digraph

/-- One step leads from vertex `v` to `w`. -/
def Link (g : Digraph) (v w : Nat) : Prop := v < g.size ∧ w ∈ g.next v

/-- Some steps, or none, lead from `v` to `w`. -/
abbrev Reaches (g : Digraph) : Nat → Nat → Prop := Relation.ReflTransGen g.Link

/-- One step or more lead from `v` to `w`. -/
abbrev LeadsTo (g : Digraph) : Nat → Nat → Prop := Relation.TransGen g.Link

variable {g : Digraph} {path done : List Nat} {u v w x : Nat}

theorem LeadsTo.lt_size (h : g.LeadsTo v w) : v < g.size := by
  obtain ⟨_, hlink, _⟩ := Relation.TransGen.head'_iff.1 h
  exact hlink.1

/-- A search adds nothing but what can be reached from where it starts. -/
theorem mem_visit_reaches (path done : List Nat) (v : Nat) :
    ∀ x ∈ g.visit path done v, x ∈ done ∨ g.Reaches v x := by
  induction path, done, v using visit.induct g with
  | case1 path done v hdone =>
    rw [visit, if_pos hdone]
    exact fun x hx => .inl hx
  | case2 path done v hdone hpath =>
    rw [visit, if_neg hdone, dif_pos hpath]
    exact fun x hx => .inl hx
  | case3 path done v hdone hpath hv ih =>
    rw [visit, if_neg hdone, dif_neg hpath, dif_pos hv]
    have hbelow (ws done : List Nat) (hws : ∀ w ∈ ws, w ∈ g.next v) :
        ∀ x ∈ ws.foldl (g.visit (v :: path)) done, x ∈ done ∨ g.Reaches v x := by
      induction ws generalizing done with
      | nil => exact fun x hx => .inl hx
      | cons w ws ihws =>
        obtain ⟨hw, hws⟩ := List.forall_mem_cons.1 hws
        intro x hx
        rcases ihws (g.visit (v :: path) done w) hws x hx with hx | hx
        · exact (ih done w x hx).imp_right fun hwx => .head ⟨hv, hw⟩ hwx
        · exact .inr hx
    intro x hx
    rcases List.mem_append.1 hx with hx | hx
    · exact hbelow (g.next v) done (fun _ hw => hw) x hx
    · exact .inr (List.mem_singleton.1 hx ▸ .refl)
  | case4 path done v hdone hpath hv =>
    rw [visit, if_neg hdone, dif_neg hpath, dif_neg hv]
    intro x hx
    rcases List.mem_append.1 hx with hx | hx
    · exact .inl hx
    · exact .inr (List.mem_singleton.1 hx ▸ .refl)

theorem mem_foldl_visit_reaches (ws done : List Nat) :
    ∀ x ∈ ws.foldl (g.visit path) done, x ∈ done ∨ ∃ w ∈ ws, g.Reaches w x := by
  induction ws generalizing done with
  | nil => exact fun x hx => .inl hx
  | cons w ws ih =>
    intro x hx
    rcases ih (g.visit path done w) x hx with hx | ⟨u, hu, hux⟩
    · exact (mem_visit_reaches path done w x hx).imp_right fun hwx => ⟨w, List.mem_cons_self, hwx⟩
    · exact .inr ⟨u, List.mem_cons_of_mem _ hu, hux⟩

/-! ## Late successors -/

/-- A successor of a listed vertex is listed before it, or everything can be reached from the successor
that is listed from the vertex on: up to where the successor is listed, or so far, if it is on the path. -/
def Late (g : Digraph) (path order : List Nat) : Prop :=
  ∀ before v after, order = before ++ v :: after → ∀ w, g.Link v w →
    w ∈ before ∨ (w ∈ path ∧ ∀ x ∈ v :: after, g.Reaches w x) ∨
      ∃ between rest, v :: after = between ++ w :: rest ∧ ∀ x ∈ between, g.Reaches w x

namespace Late

variable {order : List Nat}

theorem nil (g : Digraph) (path : List Nat) : Late g path [] := by
  intro before v after h
  cases before <;> cases h

theorem cons_path (h : Late g path order) (u : Nat) : Late g (u :: path) order := by
  intro before v after horder w hw
  rcases h before v after horder w hw with hbefore | ⟨hpath, hreaches⟩ | hbetween
  · exact .inl hbefore
  · exact .inr (.inl ⟨List.mem_cons_of_mem _ hpath, hreaches⟩)
  · exact .inr (.inr hbetween)

/-- The search leaves vertex `u`, which is listed then. -/
theorem leave (h : Late g (u :: path) order) (hpath : ∀ w ∈ path, g.Reaches w u)
    (hlinks : ∀ w, g.Link u w → w ∈ order ∨ w ∈ u :: path) : Late g path (order ++ [u]) := by
  intro before v after horder w hw
  rcases List.eq_nil_or_concat after with rfl | ⟨after, z, rfl⟩
  · -- The vertex is `u` itself.
    obtain ⟨rfl, hlast⟩ := List.append_inj' horder rfl
    obtain rfl := List.head_eq_of_cons_eq hlast
    rcases hlinks w hw with hbefore | hmem
    · exact .inl hbefore
    rcases List.mem_cons.1 hmem with rfl | hmem
    · exact .inr (.inr ⟨[], [], rfl, fun _ hx => absurd hx List.not_mem_nil⟩)
    · exact .inr (.inl ⟨hmem, fun x hx => List.mem_singleton.1 hx ▸ hpath w hmem⟩)
  · rw [List.concat_eq_append, ← List.cons_append, ← List.append_assoc] at horder
    rw [List.concat_eq_append]
    obtain ⟨rfl, hlast⟩ := List.append_inj' horder rfl
    obtain rfl := List.head_eq_of_cons_eq hlast
    rcases h before v after rfl w hw with hbefore | ⟨hmem, hreaches⟩ | ⟨between, rest, hsplit, hreaches⟩
    · exact .inl hbefore
    · rcases List.mem_cons.1 hmem with rfl | hmem
      · exact .inr (.inr ⟨v :: after, [], rfl, hreaches⟩)
      · refine .inr (.inl ⟨hmem, fun x hx => ?_⟩)
        rcases List.mem_append.1 (List.cons_append ▸ hx) with hx | hx
        · exact hreaches x hx
        · exact List.mem_singleton.1 hx ▸ hpath w hmem
    · refine .inr (.inr ⟨between, rest ++ [u], ?_, hreaches⟩)
      rw [← List.cons_append, hsplit, List.append_assoc, List.cons_append]

theorem foldl (hvisit : ∀ done w, (∀ u ∈ path, g.Reaches u w) → Late g path done →
      Late g path (g.visit path done w)) {ws : List Nat} (hws : ∀ w ∈ ws, ∀ u ∈ path, g.Reaches u w)
    (h : Late g path done) : Late g path (ws.foldl (g.visit path) done) := by
  induction ws generalizing done with
  | nil => exact h
  | cons w ws ih =>
    obtain ⟨hw, hws⟩ := List.forall_mem_cons.1 hws
    exact ih hws (hvisit done w hw h)

end Late

/-- A search that has come along its path keeps successors late only while it is on them. -/
theorem late_visit (path done : List Nat) (v : Nat) (hpath : ∀ u ∈ path, g.Reaches u v)
    (h : Late g path done) : Late g path (g.visit path done v) := by
  induction path, done, v using visit.induct g with
  | case1 path done v hdone => rwa [visit, if_pos hdone]
  | case2 path done v hdone hnew => rwa [visit, if_neg hdone, dif_pos hnew]
  | case3 path done v hdone hnew hv ih =>
    rw [visit, if_neg hdone, dif_neg hnew, dif_pos hv]
    have hnext : ∀ w ∈ g.next v, ∀ u ∈ v :: path, g.Reaches u w := fun w hw =>
      List.forall_mem_cons.2 ⟨.single ⟨hv, hw⟩, fun u hu => .tail (hpath u hu) ⟨hv, hw⟩⟩
    refine Late.leave (Late.foldl ih hnext (h.cons_path v)) hpath fun w hw => ?_
    cases Decidable.em (w ∈ v :: path) with
    | inl hmem => exact .inr hmem
    | inr hmem => exact .inl (mem_foldl_visit hw.2 hmem)
  | case4 path done v hdone hnew hv =>
    rw [visit, if_neg hdone, dif_neg hnew, dif_neg hv]
    exact (h.cons_path v).leave hpath fun w hw => absurd hw.1 hv

theorem late_foldl_visit (ws : List Nat) : Late g [] (ws.foldl (g.visit []) []) :=
  Late.foldl (late_visit []) (fun _ _ _ hu => absurd hu List.not_mem_nil) (Late.nil g [])

/-- What is listed once nothing is on the path any more leads to nothing else. -/
theorem Late.mem_of_reaches {order : List Nat} (h : Late g [] order) (hv : v ∈ order) (hw : g.Reaches v w) :
    w ∈ order := by
  induction hw with
  | refl => exact hv
  | tail _ hlink ih =>
    obtain ⟨before, after, rfl⟩ := List.append_of_mem ih
    rcases h before _ after rfl _ hlink with hbefore | ⟨hpath, _⟩ | ⟨between, rest, hsplit, _⟩
    · exact List.mem_append_left _ hbefore
    · cases hpath
    · rw [hsplit]
      exact List.mem_append_right _ (List.mem_append_right _ List.mem_cons_self)

/-! ## Reachable vertices -/

theorem mem_foldl_visit_iff (ws : List Nat) : x ∈ ws.foldl (g.visit []) [] ↔ ∃ w ∈ ws, g.Reaches w x := by
  constructor
  · exact fun hx => (mem_foldl_visit_reaches ws [] x hx).resolve_left List.not_mem_nil
  · rintro ⟨w, hw, hwx⟩
    exact (late_foldl_visit ws).mem_of_reaches (mem_foldl_visit hw List.not_mem_nil) hwx

theorem mem_reachable_iff : w ∈ g.reachable v ↔ g.LeadsTo v w := by
  rw [LeadsTo, Relation.TransGen.head'_iff]
  unfold reachable
  split
  next hv =>
    rw [mem_foldl_visit_iff]
    exact ⟨fun ⟨u, hu, huw⟩ => ⟨u, ⟨hv, hu⟩, huw⟩, fun ⟨u, hu, huw⟩ => ⟨u, hu.2, huw⟩⟩
  next hv => exact ⟨fun hw => absurd hw List.not_mem_nil, fun ⟨_, hu, _⟩ => absurd hu.1 hv⟩

/-- The vertices that lie on a circle with `v`. -/
theorem mem_circle_iff : w ∈ g.circle v ↔ g.LeadsTo v w ∧ g.LeadsTo w v := by
  unfold circle
  dsimp only
  split
  next hv =>
    simp only [List.mem_filter, List.mem_range, Bool.and_eq_true, decide_eq_true_eq, mem_reachable_iff]
    exact ⟨fun h => h.2, fun h => ⟨h.2.lt_size, h⟩⟩
  next hv =>
    rw [mem_reachable_iff] at hv
    exact ⟨fun hw => absurd hw List.not_mem_nil, fun h => absurd (h.1.trans h.2) hv⟩

theorem circle_eq_nil_iff : g.circle v = [] ↔ ¬ g.LeadsTo v v := by
  rw [List.eq_nil_iff_forall_not_mem]
  constructor
  · exact fun h hv => h v (mem_circle_iff.2 ⟨hv, hv⟩)
  · intro h w hw
    obtain ⟨hvw, hwv⟩ := mem_circle_iff.1 hw
    exact h (hvw.trans hwv)

end Conveyor.Digraph
