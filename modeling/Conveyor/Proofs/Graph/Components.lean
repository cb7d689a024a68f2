-- SUMMARY: Components in an order in which each comes after all that it reaches, and that the search lists them so.
import Conveyor.Proofs.Graph.Reachability

/-!
# Components

The vertices that can be reached from each other form a component. What the order of visits rests on is
said once, of any list of components: it holds each vertex once, and each component comes after every
component that it reaches. Then circles can be told from the components alone, and where there are none
the components are single vertices, each after its successors. The depth-first search makes such a list,
for the vertex that it leaves last of a component is left after all that the component reaches.
-/

namespace Conveyor.Digraph

variable {g : Digraph} {u v w x : Nat}

/-- Each of two vertices can be reached from the other. -/
def Joined (g : Digraph) (v w : Nat) : Prop := g.Reaches v w ∧ g.Reaches w v

namespace Joined

theorem refl (g : Digraph) (v : Nat) : g.Joined v v := ⟨.refl, .refl⟩

theorem symm (h : g.Joined v w) : g.Joined w v := And.symm h

theorem trans (h : g.Joined u v) (h' : g.Joined v w) : g.Joined u w := ⟨h.1.trans h'.1, h'.2.trans h.2⟩

/-- Two vertices that are joined lie on a circle. -/
theorem leadsTo (h : g.Joined v w) (hne : w ≠ v) : g.LeadsTo v v := by
  rcases Relation.reflTransGen_iff_eq_or_transGen.1 h.1 with heq | hahead
  · exact absurd heq hne
  · exact hahead.trans_left h.2

end Joined

/-! ## Lists of components -/

/-- The list `cs` holds each vertex in one component, and no component before one that it reaches. -/
structure Components (g : Digraph) (cs : List (List Nat)) : Prop where
  perm : cs.flatten.Perm (List.range g.size)
  inhabited : ∀ c ∈ cs, c ≠ []
  joined : ∀ c ∈ cs, ∀ v ∈ c, ∀ w, w ∈ c ↔ g.Joined v w
  ordered : cs.Pairwise fun c d => ∀ v ∈ c, ∀ w ∈ d, ¬ g.Reaches v w

/-- A component that holds a circle: one of several vertices, or of one that leads to itself. -/
def IsCircular (g : Digraph) (c : List Nat) : Prop := 1 < c.length ∨ ∃ v ∈ c.head?, v ∈ g.next v

instance (g : Digraph) (c : List Nat) : Decidable (g.IsCircular c) :=
  inferInstanceAs (Decidable (1 < c.length ∨ ∃ v ∈ c.head?, v ∈ g.next v))

namespace Components

variable {cs : List (List Nat)} {c : List Nat}

theorem nodup (h : g.Components cs) (hc : c ∈ cs) : c.Nodup :=
  (List.nodup_flatten.1 (h.perm.nodup_iff.2 List.nodup_range)).1 c hc

theorem lt_size (h : g.Components cs) (hc : c ∈ cs) (hv : v ∈ c) : v < g.size :=
  List.mem_range.1 (h.perm.mem_iff.1 (List.mem_flatten.2 ⟨c, hc, hv⟩))

theorem exists_mem (h : g.Components cs) (hv : v < g.size) : ∃ c ∈ cs, v ∈ c :=
  List.mem_flatten.1 (h.perm.mem_iff.2 (List.mem_range.2 hv))

/-- A component that holds no circle is a single vertex that does not lead to itself. -/
theorem eq_singleton (h : g.Components cs) (hc : c ∈ cs) (hcircle : ¬ g.IsCircular c) :
    ∃ v, c = [v] ∧ ¬ g.LeadsTo v v := by
  obtain ⟨hlength, hself⟩ := not_or.1 hcircle
  cases c with
  | nil => exact absurd rfl (h.inhabited [] hc)
  | cons v rest =>
    obtain rfl : rest = [] := List.eq_nil_of_length_eq_zero (by simpa using hlength)
    refine ⟨v, rfl, fun hahead => ?_⟩
    obtain ⟨w, hlink, hback⟩ := Relation.TransGen.head'_iff.1 hahead
    have hmem : w ∈ [v] := (h.joined [v] hc v List.mem_cons_self w).2 ⟨.single hlink, hback⟩
    obtain rfl := List.mem_singleton.1 hmem
    exact hself ⟨w, rfl, hlink.2⟩

/-- A component holds a circle if any of its vertices lies on one. -/
theorem isCircular_iff (h : g.Components cs) (hc : c ∈ cs) (hv : v ∈ c) : g.IsCircular c ↔ g.LeadsTo v v := by
  constructor
  · intro hcircle
    obtain ⟨u, hu, hself⟩ : ∃ u ∈ c, g.LeadsTo u u := by
      rcases hcircle with hlength | ⟨u, hu, hself⟩
      · match c, hlength with
        | u :: w :: rest, _ =>
          have hne : w ≠ u := fun heq => (List.nodup_cons.1 (h.nodup hc)).1 (heq ▸ List.mem_cons_self)
          have hw : w ∈ u :: w :: rest := List.mem_cons_of_mem _ List.mem_cons_self
          exact ⟨u, List.mem_cons_self, ((h.joined _ hc u List.mem_cons_self w).1 hw).leadsTo hne⟩
      · have hmem := List.mem_of_mem_head? hu
        exact ⟨u, hmem, .single ⟨h.lt_size hc hmem, hself⟩⟩
    have hjoined := (h.joined c hc v hv u).1 hu
    exact Relation.TransGen.trans_right hjoined.1 (hself.trans_left hjoined.2)
  · intro hself
    by_contra hcircle
    obtain ⟨w, rfl, hw⟩ := h.eq_singleton hc hcircle
    obtain rfl := List.mem_singleton.1 hv
    exact hw hself

/-- Circles can be told from the components. -/
theorem exists_isCircular_iff (h : g.Components cs) : (∃ c ∈ cs, g.IsCircular c) ↔ ∃ v, g.LeadsTo v v := by
  constructor
  · rintro ⟨c, hc, hcircle⟩
    obtain ⟨v, hv⟩ := List.exists_mem_of_ne_nil c (h.inhabited c hc)
    exact ⟨v, (h.isCircular_iff hc hv).1 hcircle⟩
  · rintro ⟨v, hself⟩
    obtain ⟨c, hc, hv⟩ := h.exists_mem hself.lt_size
    exact ⟨c, hc, (h.isCircular_iff hc hv).2 hself⟩

/-- Where there are no circles, the components are single vertices. -/
theorem eq_map_singleton (h : g.Components cs) (hacyclic : ∀ v, ¬ g.LeadsTo v v) :
    cs = cs.flatten.map fun v => [v] := by
  have hsingle : ∀ c ∈ cs, ∃ v, c = [v] := fun c hc => by
    have hnone : ¬ g.IsCircular c := fun hcircle =>
      (h.exists_isCircular_iff.1 ⟨c, hc, hcircle⟩).elim hacyclic
    obtain ⟨v, hv, _⟩ := h.eq_singleton hc hnone
    exact ⟨v, hv⟩
  clear h
  induction cs with
  | nil => rfl
  | cons c cs ih =>
    obtain ⟨⟨v, rfl⟩, hcs⟩ := List.forall_mem_cons.1 hsingle
    rw [List.flatten_cons, List.singleton_append, List.map_cons, ← ih hcs]

/-- Where there are no circles, every vertex comes after its successors. -/
theorem mem_of_link (h : g.Components cs) (hacyclic : ∀ v, ¬ g.LeadsTo v v)
    (hin : ∀ v w, g.Link v w → w < g.size) {before after : List Nat}
    (hsplit : cs.flatten = before ++ v :: after) (hlink : g.Link v w) : w ∈ before := by
  have hordered : cs.flatten.Pairwise fun v w => ¬ g.Reaches v w := by
    have hpairs := h.ordered
    rw [h.eq_map_singleton hacyclic, List.pairwise_map] at hpairs
    exact hpairs.imp fun hvw => hvw _ (List.mem_singleton_self _) _ (List.mem_singleton_self _)
  have hmem : w ∈ cs.flatten := h.perm.mem_iff.2 (List.mem_range.2 (hin v w hlink))
  rw [hsplit] at hmem hordered
  rcases List.mem_append.1 hmem with hbefore | hmem
  · exact hbefore
  rcases List.mem_cons.1 hmem with rfl | hafter
  · exact absurd (.single hlink) (hacyclic w)
  · have hreach := (List.pairwise_cons.1 (List.pairwise_append.1 hordered).2.1).1 w hafter
    exact absurd (.single hlink) hreach

end Components

/-! ## The components of the search -/

/-- The vertices that are joined with `v`. -/
def component (g : Digraph) (v : Nat) : List Nat := if g.circle v = [] then [v] else g.circle v

/-- The components in the order in which the search leaves the last vertex of each. -/
def components (g : Digraph) : List (List Nat) := (g.lastOfCircle g.postorder).map g.component

theorem mem_component_iff : w ∈ g.component v ↔ g.Joined v w := by
  unfold component
  split
  next hnone =>
    rw [List.mem_singleton]
    constructor
    · rintro rfl
      exact Joined.refl g w
    · intro h
      by_contra hne
      exact circle_eq_nil_iff.1 hnone (h.leadsTo hne)
  next hsome =>
    have hself : g.LeadsTo v v := not_not.1 fun h => hsome (circle_eq_nil_iff.2 h)
    rw [mem_circle_iff]
    exact ⟨fun h => ⟨h.1.to_reflTransGen, h.2.to_reflTransGen⟩,
      fun h => ⟨hself.trans_left h.1, Relation.TransGen.trans_right h.2 hself⟩⟩

theorem nodup_component (g : Digraph) (v : Nat) : (g.component v).Nodup := by
  unfold component
  split
  · exact List.nodup_singleton v
  · unfold circle
    dsimp only
    split
    · exact List.nodup_range.filter _
    · exact List.nodup_nil

/-- Some of the vertices are joined with `v`: what `lastOfCircle` looks for. -/
theorem any_joined_iff {vs : List Nat} (hv : v ∉ vs) :
    (vs.any fun w => w ∈ g.reachable v && v ∈ g.reachable w) = true ↔ ∃ w ∈ vs, g.Joined v w := by
  simp only [List.any_eq_true, Bool.and_eq_true, decide_eq_true_eq, mem_reachable_iff]
  constructor
  · rintro ⟨w, hw, hvw, hwv⟩
    exact ⟨w, hw, hvw.to_reflTransGen, hwv.to_reflTransGen⟩
  · rintro ⟨w, hw, h⟩
    have hne : w ≠ v := fun heq => hv (heq ▸ hw)
    exact ⟨w, hw, (h.leadsTo hne).trans_left h.1, (h.symm.leadsTo hne.symm).trans_left h.2⟩

/-- What is left last of its component comes after all that it reaches. -/
theorem Late.mem_of_last {before after : List Nat} (h : Late g [] (before ++ v :: after))
    (hlast : ∀ w ∈ after, ¬ g.Joined v w) (hx : g.Reaches v x) : x ∈ before ++ [v] := by
  induction hx with
  | refl => exact List.mem_append_right _ List.mem_cons_self
  | @tail y x hy hlink ih =>
    obtain ⟨early, late, hsplit⟩ := List.append_of_mem ih
    have hv : v ∈ y :: late := by
      have hend := congrArg List.getLast? hsplit
      rw [List.getLast?_append_of_ne_nil _ (List.cons_ne_nil _ _), List.getLast?_singleton,
        List.getLast?_append_of_ne_nil _ (List.cons_ne_nil _ _)] at hend
      exact List.mem_of_getLast? hend.symm
    have horder : before ++ v :: after = early ++ y :: (late ++ after) := by
      rw [← List.singleton_append, ← List.append_assoc, hsplit, List.append_assoc, List.cons_append]
    rw [hsplit]
    rcases h early y (late ++ after) horder x hlink with hearly | ⟨hpath, _⟩ | ⟨between, rest, heq, hreaches⟩
    · exact List.mem_append_left _ hearly
    · cases hpath
    -- If the successor came behind `v`, it would be joined with it.
    have hbehind (hmem : x ∈ after) (hbetween : v ∈ between) : False :=
      hlast x hmem ⟨hy.tail hlink, hreaches v hbetween⟩
    rw [← List.cons_append] at heq
    rcases List.append_eq_append_iff.1 heq with ⟨as, hbetween, hafter⟩ | ⟨bs, hlate, hrest⟩
    · exact (hbehind (hafter ▸ List.mem_append_right _ List.mem_cons_self)
        (hbetween ▸ List.mem_append_left _ hv)).elim
    · cases bs with
      | nil =>
        rw [List.append_nil] at hlate
        exact (hbehind (by rw [← List.nil_append after, ← hrest]; exact List.mem_cons_self)
          (hlate ▸ hv)).elim
      | cons z bs =>
        obtain rfl := List.head_eq_of_cons_eq hrest
        exact List.mem_append_right _ (hlate ▸ List.mem_append_right _ List.mem_cons_self)

theorem pairwise_lastOfCircle {done vs : List Nat} (h : Late g [] (done ++ vs)) (hnodup : (done ++ vs).Nodup) :
    (g.lastOfCircle vs).Pairwise fun v w => ¬ g.Reaches v w := by
  induction vs generalizing done with
  | nil => exact List.Pairwise.nil
  | cons v vs ih =>
    have hv : v ∉ vs := (List.nodup_cons.1 (List.nodup_append.1 hnodup).2.1).1
    have hrest : (g.lastOfCircle vs).Pairwise fun v w => ¬ g.Reaches v w := by
      rw [← List.singleton_append, ← List.append_assoc] at h hnodup
      exact ih h hnodup
    rw [lastOfCircle]
    split
    · exact hrest
    next hnone =>
      refine List.pairwise_cons.2 ⟨fun w hw hreach => ?_, hrest⟩
      have hbefore := h.mem_of_last (fun x hx hjoined => hnone ((any_joined_iff hv).2 ⟨x, hx, hjoined⟩)) hreach
      rw [← List.singleton_append, ← List.append_assoc] at hnodup
      exact (List.nodup_append.1 hnodup).2.2 w hbefore w (lastOfCircle_subset vs hw) rfl

theorem exists_mem_lastOfCircle {vs : List Nat} (hnodup : vs.Nodup) (hx : x ∈ vs) :
    ∃ v ∈ g.lastOfCircle vs, g.Joined v x := by
  induction vs generalizing x with
  | nil => cases hx
  | cons v vs ih =>
    obtain ⟨hv, hnodup⟩ := List.nodup_cons.1 hnodup
    rw [lastOfCircle]
    cases hx with
    | tail _ hx =>
      obtain ⟨w, hw, hjoined⟩ := ih hnodup hx
      split
      · exact ⟨w, hw, hjoined⟩
      · exact ⟨w, List.mem_cons_of_mem _ hw, hjoined⟩
    | head =>
      split
      next hsome =>
        obtain ⟨w, hw, hjoined⟩ := (any_joined_iff hv).1 hsome
        obtain ⟨u, hu, huw⟩ := ih hnodup hw
        exact ⟨u, hu, huw.trans hjoined.symm⟩
      · exact ⟨v, List.mem_cons_self, Joined.refl g v⟩

theorem mem_postorder_iff (hin : ∀ v w, g.Link v w → w < g.size) : v ∈ g.postorder ↔ v < g.size := by
  refine ⟨fun hv => ?_, mem_postorder⟩
  obtain ⟨w, hw, hreach⟩ := (mem_foldl_visit_iff _).1 hv
  rcases Relation.ReflTransGen.cases_tail hreach with rfl | ⟨u, _, hlink⟩
  · exact List.mem_range.1 hw
  · exact hin u v hlink

theorem mem_components_iff {c : List Nat} :
    c ∈ g.components ↔ ∃ v ∈ g.lastOfCircle g.postorder, g.component v = c := List.mem_map

/-- The search lists no component before one that it reaches. -/
theorem pairwise_components (g : Digraph) :
    g.components.Pairwise fun c d => ∀ v ∈ c, ∀ w ∈ d, ¬ g.Reaches v w := by
  have hlate : Late g [] ([] ++ g.postorder) := late_foldl_visit _
  refine List.pairwise_map.2 ((pairwise_lastOfCircle hlate nodup_postorder).imp fun hvw x hx y hy hreach => hvw ?_)
  exact (mem_component_iff.1 hx).1.trans (hreach.trans (mem_component_iff.1 hy).2)

/-- Every vertex is in one of them. -/
theorem flatten_components_perm (hin : ∀ v w, g.Link v w → w < g.size) :
    g.components.flatten.Perm (List.range g.size) := by
  have hnodup : g.components.flatten.Nodup := by
    refine List.nodup_flatten.2 ⟨fun c hc => ?_, (pairwise_components g).imp fun {c d} h => ?_⟩
    · obtain ⟨v, _, rfl⟩ := mem_components_iff.1 hc
      exact nodup_component g v
    · exact List.disjoint_left.2 fun x hx hx' => h x hx x hx' .refl
  refine (List.perm_ext_iff_of_nodup hnodup List.nodup_range).2 fun x => ?_
  rw [List.mem_range, List.mem_flatten, ← mem_postorder_iff hin]
  constructor
  · rintro ⟨c, hc, hx⟩
    obtain ⟨v, hv, rfl⟩ := mem_components_iff.1 hc
    exact (late_foldl_visit _).mem_of_reaches (lastOfCircle_subset _ hv) (mem_component_iff.1 hx).1
  · intro hx
    obtain ⟨v, hv, hjoined⟩ := exists_mem_lastOfCircle nodup_postorder hx
    exact ⟨g.component v, List.mem_map_of_mem hv, mem_component_iff.2 hjoined⟩

/-- Where every step leads to a vertex, the search lists the components, each after all that it reaches. -/
theorem components_spec (hin : ∀ v w, g.Link v w → w < g.size) : g.Components g.components := by
  refine ⟨flatten_components_perm hin, fun c hc => ?_, fun c hc v hv w => ?_, pairwise_components g⟩
  · obtain ⟨v, _, rfl⟩ := mem_components_iff.1 hc
    exact List.ne_nil_of_mem (mem_component_iff.2 (Joined.refl g v))
  · obtain ⟨u, _, rfl⟩ := mem_components_iff.1 hc
    have huv := mem_component_iff.1 hv
    rw [mem_component_iff]
    exact ⟨huv.symm.trans, huv.trans⟩

/-- Where there are no circles, these are the vertices one by one, in the order of the search. -/
theorem components_of_acyclic (hacyclic : ∀ v, ¬ g.LeadsTo v v) :
    g.components = g.postorder.map fun v => [v] := by
  have hlast (vs : List Nat) : g.lastOfCircle vs = vs := by
    induction vs with
    | nil => rfl
    | cons v vs ih =>
      rw [lastOfCircle, ih]
      refine if_neg fun hany => ?_
      simp only [List.any_eq_true, Bool.and_eq_true, decide_eq_true_eq, mem_reachable_iff] at hany
      obtain ⟨w, _, hvw, hwv⟩ := hany
      exact hacyclic v (hvw.trans hwv)
  rw [components, hlast]
  exact List.map_congr_left fun v _ => if_pos (circle_eq_nil_iff.2 (hacyclic v))

/-! ## Components found in turn -/

/-- The list `cs` is one of a search that starts from the vertices by their numbers: what leads to a later
component is no earlier than what leads to an earlier one. -/
def FoundInTurn (g : Digraph) (cs : List (List Nat)) : Prop :=
  cs.Pairwise fun c d => ∀ v ∈ c, ∀ w ∈ d, ∀ r < g.size, g.Reaches r w → ∃ q ≤ r, g.Reaches q v

theorem prefix_foldl {step : List Nat → Nat → List Nat} (h : ∀ done w, done <+: step done w)
    (ws done : List Nat) : done <+: ws.foldl step done := by
  induction ws generalizing done with
  | nil => exact List.prefix_rfl
  | cons w ws ih => exact (h done w).trans (ih (step done w))

/-- A search lists what it finds behind what is done. -/
theorem prefix_visit (path done : List Nat) (v : Nat) : done <+: g.visit path done v := by
  induction path, done, v using visit.induct g with
  | case1 path done v hdone =>
    have hsame : g.visit path done v = done := by rw [visit, if_pos hdone]
    exact hsame.symm ▸ List.prefix_rfl
  | case2 path done v hdone hpath =>
    have hsame : g.visit path done v = done := by rw [visit, if_neg hdone, dif_pos hpath]
    exact hsame.symm ▸ List.prefix_rfl
  | case3 path done v hdone hpath hv ih =>
    rw [visit, if_neg hdone, dif_neg hpath, dif_pos hv]
    exact (prefix_foldl ih (g.next v) done).trans (List.prefix_append _ _)
  | case4 path done v hdone hpath hv =>
    rw [visit, if_neg hdone, dif_neg hpath, dif_neg hv]
    exact List.prefix_append _ _

/-- What the search has listed once it has been started from `r` stands before all the rest. -/
theorem pairwise_postorder (g : Digraph) :
    g.postorder.Pairwise fun v w => ∀ r < g.size, g.Reaches r w → ∃ q ≤ r, g.Reaches q v := by
  refine List.pairwise_iff_forall_sublist.2 fun {v w} hvw r hr hw => ?_
  have hsplit : List.range g.size = List.range (r + 1) ++ (List.range (g.size - (r + 1))).map (r + 1 + ·) := by
    rw [← List.range_add, Nat.add_sub_of_le hr]
  obtain ⟨rest, hrest⟩ : (List.range (r + 1)).foldl (g.visit []) [] <+: g.postorder := by
    rw [postorder, hsplit, List.foldl_append]
    exact prefix_foldl (prefix_visit []) _ _
  have hnodup := hrest ▸ nodup_postorder (g := g)
  have hwdone : w ∈ (List.range (r + 1)).foldl (g.visit []) [] :=
    (mem_foldl_visit_iff _).2 ⟨r, List.mem_range.2 (Nat.lt_succ_self r), hw⟩
  rw [← hrest] at hvw
  obtain ⟨early, late, hpair, hearly, hlate⟩ := List.sublist_append_iff.1 hvw
  have hvdone : v ∈ (List.range (r + 1)).foldl (g.visit []) [] := by
    cases early with
    | nil =>
      obtain rfl : [v, w] = late := hpair
      have hwrest : w ∈ rest := hlate.subset (List.mem_cons_of_mem _ List.mem_cons_self)
      exact absurd rfl ((List.nodup_append.1 hnodup).2.2 w hwdone w hwrest)
    | cons x early =>
      obtain ⟨rfl, -⟩ := List.cons.inj hpair
      exact hearly.subset List.mem_cons_self
  obtain ⟨q, hq, hreach⟩ := (mem_foldl_visit_iff _).1 hvdone
  exact ⟨q, Nat.le_of_lt_succ (List.mem_range.1 hq), hreach⟩

theorem lastOfCircle_sublist (vs : List Nat) : (g.lastOfCircle vs).Sublist vs := by
  induction vs with
  | nil => exact List.Sublist.refl []
  | cons v vs ih =>
    rw [lastOfCircle]
    split
    · exact ih.cons v
    · exact ih.cons_cons v

/-- The search of all vertices finds its components in turn. -/
theorem components_foundInTurn (g : Digraph) : g.FoundInTurn g.components := by
  refine List.pairwise_map.2 (((pairwise_postorder g).sublist (lastOfCircle_sublist _)).imp ?_)
  intro v w hvw x hx y hy r hr hry
  obtain ⟨q, hq, hqv⟩ := hvw r hr (hry.trans (mem_component_iff.1 hy).2)
  exact ⟨q, hq, hqv.trans (mem_component_iff.1 hx).1⟩

theorem Reaches.le_of_descends (hdown : ∀ i, ∀ u ∈ g.next i, u < i) (h : g.Reaches v w) : w ≤ v := by
  induction h with
  | refl => exact Nat.le_refl v
  | tail _ hlink ih => exact Nat.le_of_lt (Nat.lt_of_lt_of_le (hdown _ _ hlink.2) ih)

/-- Where every step goes down, whoever starts from the vertices by their numbers finds each of them alone
and in its turn. -/
theorem Components.eq_map_range {cs : List (List Nat)} (h : g.Components cs) (hturn : g.FoundInTurn cs)
    (hdown : ∀ i, ∀ u ∈ g.next i, u < i) : cs = (List.range g.size).map fun v => [v] := by
  have hacyclic (v : Nat) (hv : g.LeadsTo v v) : False := by
    obtain ⟨w, hlink, hback⟩ := Relation.TransGen.head'_iff.1 hv
    exact Nat.lt_irrefl v (Nat.lt_of_le_of_lt (Reaches.le_of_descends hdown hback) (hdown v w hlink.2))
  have hsingle := h.eq_map_singleton hacyclic
  have hascends : cs.flatten.Pairwise (· ≤ ·) := by
    have hpairs := hturn
    rw [FoundInTurn, hsingle, List.pairwise_map] at hpairs
    refine hpairs.imp_of_mem fun {v w} _ hw hvw => ?_
    have hlt : w < g.size := List.mem_range.1 (h.perm.mem_iff.1 hw)
    obtain ⟨q, hq, hreach⟩ := hvw v (List.mem_singleton_self v) w (List.mem_singleton_self w) w hlt .refl
    exact Nat.le_trans (Reaches.le_of_descends hdown hreach) hq
  have hrange : cs.flatten = List.range g.size :=
    h.perm.eq_of_pairwise (fun _ _ _ _ => Nat.le_antisymm) hascends List.pairwise_le_range
  rw [hsingle, hrange]

end Conveyor.Digraph
