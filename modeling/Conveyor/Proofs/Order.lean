-- SUMMARY: Visiting orders: refused just where streams supply each other, and otherwise one with every stream after its suppliers.
import Conveyor.Proofs.Acyclic
import Conveyor.Proofs.Answering
import Conveyor.Proofs.Graph.Components

/-!
# Visiting orders

The order of visits is read off the components of the supply graph: the first stream of each, unless a
component holds a circle. All that is used of the components is that each comes after those that it
reaches, so whoever makes such a list makes a right order. The list of the depth-first search is one.
-/

namespace Conveyor.Arena

variable {a : Arena} {i u : Nat} {cs : List (List Nat)} {done is before after : List Nat}

/-! ## The supply graph -/

theorem mem_next_iff : u ∈ a.supplyGraph.next i ↔ a.Supplies u i := by
  cases hs : a.stream? i with
  | none =>
    simp only [supplyGraph, hs, Option.map_none, Option.getD_none, List.not_mem_nil, false_iff]
    rintro ⟨s, hs', _⟩
    rw [hs] at hs'
    cases hs'
  | some s =>
    simp only [supplyGraph, hs, Option.map_some, Option.getD_some, Stream.suppliers, List.mem_eraseDups,
      List.mem_map, Supplies, Option.some.injEq, exists_eq_left']

theorem Supplies.lt_size (h : a.Supplies u i) : i < a.size := by
  obtain ⟨s, hs, _⟩ := h
  exact (List.getElem?_eq_some_iff.1 hs).1

theorem link_iff : a.supplyGraph.Link i u ↔ a.Supplies u i :=
  ⟨fun h => mem_next_iff.1 h.2, fun h => ⟨h.lt_size, mem_next_iff.2 h⟩⟩

/-- What a stream leads to is upstream of it. -/
theorem leadsTo_iff : a.supplyGraph.LeadsTo i u ↔ a.Upstream u i := by
  have hlink : a.supplyGraph.Link = Function.swap a.Supplies := by
    funext v w
    exact propext link_iff
  rw [Digraph.LeadsTo, hlink, Relation.transGen_swap, Upstream]

theorem acyclic_iff : a.Acyclic ↔ ∀ v, ¬ a.supplyGraph.LeadsTo v v := by
  simp only [Acyclic, leadsTo_iff]

theorem Supplies.lt_size_of_bound (h : a.Supplies u i) (hbound : a.SlotsBound i) : u < a.size := by
  obtain ⟨s, hs, slot, hslot, rfl⟩ := h
  exact hbound s hs slot hslot

theorem lt_size_of_link (hbound : ∀ i, a.SlotsBound i) (v w : Nat) (h : a.supplyGraph.Link v w) :
    w < a.supplyGraph.size :=
  (link_iff.1 h).lt_size_of_bound (hbound v)

/-- Bindings to earlier streams are bindings to streams. -/
theorem BindsEarlier.slotsBound (h : a.BindsEarlier) (i : Nat) : a.SlotsBound i := fun s hs slot hslot =>
  have hsupplies : a.Supplies slot.supplier i := ⟨s, hs, slot, hslot, rfl⟩
  Nat.lt_trans (h.lt hsupplies) hsupplies.lt_size

/-! ## Suppliers first -/

/-- In the order every stream comes after its suppliers. -/
def SuppliersFirst (a : Arena) (order : List Nat) : Prop :=
  ∀ before i after, order = before ++ i :: after → ∀ u, a.Supplies u i → u ∈ before

/-- With what is done, every stream of the order comes after its suppliers. -/
def Follows (a : Arena) : List Nat → List Nat → Prop
  | _, [] => True
  | done, i :: is => (∀ u, a.Supplies u i → u ∈ done) ∧ a.Follows (i :: done) is

theorem Follows.mono {done' : List Nat} (h : a.Follows done is) (hdone : done ⊆ done') : a.Follows done' is := by
  induction is generalizing done done' with
  | nil => trivial
  | cons i is ih => exact ⟨fun u hu => hdone (h.1 u hu), ih h.2 (List.cons_subset_cons i hdone)⟩

/-- What is visited earlier need not be waited for. -/
theorem Follows.of_middle (h : a.Follows done (before ++ i :: after)) :
    a.Follows (i :: done) (before ++ after) := by
  induction before generalizing done with
  | nil => exact h.2
  | cons x before ih =>
    refine ⟨fun u hu => List.mem_cons_of_mem _ (h.1 u hu), (ih h.2).mono ?_⟩
    exact (List.Perm.swap x i done).subset

/-- What comes before a stream is not supplied by it. -/
theorem Follows.pairwise (h : a.Follows done is) (hnodup : is.Nodup) (hdone : ∀ i ∈ is, i ∉ done) :
    is.Pairwise fun x i => ¬ a.Supplies i x := by
  induction is generalizing done with
  | nil => exact List.Pairwise.nil
  | cons x is ih =>
    obtain ⟨hx, hnodup⟩ := List.nodup_cons.1 hnodup
    obtain ⟨_, hdone⟩ := List.forall_mem_cons.1 hdone
    refine List.pairwise_cons.2
      ⟨fun i hi hsupplies => hdone i hi (h.1 i hsupplies), ih h.2 hnodup fun i hi hmem => ?_⟩
    rcases List.mem_cons.1 hmem with rfl | hmem
    · exact hx hi
    · exact hdone i hi hmem

theorem follows_iff : a.Follows done is ↔ ∀ before i after, is = before ++ i :: after →
    ∀ u, a.Supplies u i → u ∈ done ∨ u ∈ before := by
  induction is generalizing done with
  | nil =>
    refine ⟨fun _ before i after h => ?_, fun _ => trivial⟩
    cases before <;> cases h
  | cons x is ih =>
    rw [Follows, ih]
    constructor
    · rintro ⟨hx, his⟩ before i after hsplit u hu
      cases before with
      | nil =>
        obtain ⟨rfl, -⟩ := List.cons.inj hsplit
        exact .inl (hx u hu)
      | cons y before =>
        obtain ⟨rfl, htail⟩ := List.cons.inj hsplit
        rw [List.mem_cons, ← or_assoc, or_comm (a := u ∈ done), ← List.mem_cons]
        exact his before i after htail u hu
    · refine fun h => ⟨fun u hu => (h [] x is rfl u hu).resolve_right List.not_mem_nil, ?_⟩
      intro before i after hsplit u hu
      rw [List.mem_cons, or_comm (a := u = x), or_assoc, ← List.mem_cons]
      exact h (x :: before) i after (hsplit ▸ rfl) u hu

theorem suppliersFirst_iff : a.SuppliersFirst is ↔ a.Follows [] is := by
  rw [follows_iff]
  simp only [List.not_mem_nil, false_or]
  rfl

/-- What comes earlier in an order of all streams is a stream. -/
theorem SuppliersFirst.slotsBound (h : a.SuppliersFirst is) (hperm : is.Perm (List.range a.size)) (i : Nat) :
    a.SlotsBound i := by
  intro s hs slot hslot
  have hsupplies : a.Supplies slot.supplier i := ⟨s, hs, slot, hslot, rfl⟩
  obtain ⟨before, after, rfl⟩ := List.append_of_mem (hperm.mem_iff.2 (List.mem_range.2 hsupplies.lt_size))
  have hmem := h before i after rfl slot.supplier hsupplies
  exact List.mem_range.1 (hperm.mem_iff.1 (List.mem_append_left _ hmem))

/-! ## Orders from components -/

/-- A component that holds a circle is refused. -/
def refuseCircle (a : Arena) (c : List Nat) : Except Fault Unit :=
  if a.supplyGraph.IsCircular c then Refusal.fail (.supplyEachOther c.mergeSort) else .ok ()

/-- The first stream of each component, unless one of them is refused. -/
def orderFrom (a : Arena) (components : List (List Nat)) : Except Fault (List Nat) := do
  components.forM a.refuseCircle
  return components.filterMap List.head?

theorem refuseCircle_of_circular {c : List Nat} (h : a.supplyGraph.IsCircular c) :
    a.refuseCircle c = .error (.refused (.supplyEachOther c.mergeSort)) := if_pos h

theorem refuseCircle_eq_ok {c : List Nat} : a.refuseCircle c = .ok () ↔ ¬ a.supplyGraph.IsCircular c := by
  constructor
  · intro h hcircle
    rw [refuseCircle_of_circular hcircle] at h
    cases h
  · exact fun h => if_neg h

/-- If streams supply each other, no order is made of the components. -/
theorem orderFrom_of_cyclic (h : a.supplyGraph.Components cs) (hcyclic : ¬ a.Acyclic) :
    ∃ f, f.kind? = some .cycle ∧ a.orderFrom cs = .error f := by
  obtain ⟨c, hc, hcircle⟩ : ∃ c ∈ cs, a.supplyGraph.IsCircular c := by
    rw [h.exists_isCircular_iff]
    simpa only [acyclic_iff, not_forall, not_not] using hcyclic
  have hfaults : Faults (·.kind? = some .cycle) (cs.forM a.refuseCircle) := by
    refine Faults.forM fun c _ => ?_
    cases Decidable.em (a.supplyGraph.IsCircular c) with
    | inl hcircle => exact refuseCircle_of_circular hcircle ▸ Faults.error rfl
    | inr hcircle => exact refuseCircle_eq_ok.2 hcircle ▸ Faults.ok ()
  unfold orderFrom
  cases hcheck : cs.forM a.refuseCircle with
  | ok _ => exact absurd hcircle (refuseCircle_eq_ok.1 (Result.forM_eq_ok.1 hcheck c hc))
  | error f => exact ⟨f, hfaults f hcheck, rfl⟩

/-- Otherwise the order holds each stream once, after its suppliers. -/
theorem orderFrom_of_acyclic (hbound : ∀ i, a.SlotsBound i) (h : a.supplyGraph.Components cs)
    (hacyclic : a.Acyclic) :
    a.orderFrom cs = .ok cs.flatten ∧ cs.flatten.Perm (List.range a.size) ∧ a.SuppliersFirst cs.flatten := by
  have hnone := acyclic_iff.1 hacyclic
  refine ⟨?_, h.perm, fun before i after hsplit u hu => ?_⟩
  · have hcheck : cs.forM a.refuseCircle = .ok () := Result.forM_eq_ok.2 fun c hc =>
      refuseCircle_eq_ok.2 fun hcircle => (h.exists_isCircular_iff.1 ⟨c, hc, hcircle⟩).elim hnone
    have hheads : cs.filterMap List.head? = cs.flatten := by
      conv_lhs => rw [h.eq_map_singleton hnone]
      rw [List.filterMap_map]
      exact List.filterMap_some
    unfold orderFrom
    rw [hcheck, hheads]
    rfl
  · exact h.mem_of_link hnone (lt_size_of_link hbound) hsplit (link_iff.2 hu)

/-! ## The order of the search -/

theorem mergeSort_circle (g : Digraph) (v : Nat) : (g.circle v).mergeSort = g.circle v := by
  refine List.mergeSort_of_pairwise ?_
  unfold Digraph.circle
  dsimp only
  split
  · exact (List.pairwise_le_range.filter _).imp fun h => decide_eq_true h
  · exact List.Pairwise.nil

/-- What is checked is that no component holds a circle. -/
theorem checkAcyclic_postorder (hbound : ∀ i, a.SlotsBound i) :
    a.checkAcyclic a.supplyGraph.postorder = a.supplyGraph.components.forM a.refuseCircle := by
  have hin := lt_size_of_link hbound
  have hcs := Digraph.components_spec hin
  rw [checkAcyclic, Digraph.components]
  refine (Result.forM_map fun v hv => ?_).symm
  have hlt : v < a.size := (Digraph.mem_postorder_iff hin).1 (Digraph.lastOfCircle_subset _ hv)
  have hcircular := hcs.isCircular_iff (List.mem_map_of_mem hv)
    (Digraph.mem_component_iff.2 (Digraph.Joined.refl a.supplyGraph v))
  rw [if_neg (Nat.not_le.2 hlt)]
  split
  next hnone =>
    exact (refuseCircle_eq_ok.2 fun h => Digraph.circle_eq_nil_iff.1 hnone (hcircular.1 h)).symm
  next hsome =>
    have hself : a.supplyGraph.LeadsTo v v := not_not.1 fun h => hsome (Digraph.circle_eq_nil_iff.2 h)
    rw [refuseCircle_of_circular (hcircular.2 hself), Digraph.component, if_neg hsome, mergeSort_circle]
    rfl

/-- The order of visits is the one that the components of the search make. -/
theorem visitOrder_eq_orderFrom (hbound : ∀ i, a.SlotsBound i) :
    a.visitOrder .suppliersFirst = a.orderFrom a.supplyGraph.components ∧
      a.visitOrder .consumersFirst = (a.orderFrom a.supplyGraph.components).map List.reverse := by
  have hcs := Digraph.components_spec (lt_size_of_link hbound)
  have hcheck := checkAcyclic_postorder hbound
  unfold visitOrder orderFrom
  cases hrefuse : a.supplyGraph.components.forM a.refuseCircle with
  | error f =>
    simp only [hcheck, hrefuse]
    exact ⟨rfl, rfl⟩
  | ok _ =>
    have hacyclic : ∀ v, ¬ a.supplyGraph.LeadsTo v v := fun v hv => by
      obtain ⟨c, hc, hcircle⟩ := hcs.exists_isCircular_iff.2 ⟨v, hv⟩
      exact refuseCircle_eq_ok.1 (Result.forM_eq_ok.1 hrefuse c hc) hcircle
    have hheads : a.supplyGraph.components.filterMap List.head? = a.supplyGraph.postorder := by
      rw [Digraph.components_of_acyclic hacyclic, List.filterMap_map]
      exact List.filterMap_some
    simp only [hcheck, hrefuse, hheads, true_and]
    rfl

/-- Where streams do not supply each other, the two orders that follow the supply are each other's reverse. -/
theorem visitOrder_of_acyclic (hbound : ∀ i, a.SlotsBound i) (hacyclic : a.Acyclic) :
    ∃ is, is.Perm (List.range a.size) ∧ a.SuppliersFirst is ∧ a.visitOrder .suppliersFirst = .ok is ∧
      a.visitOrder .consumersFirst = .ok is.reverse := by
  have hcs := Digraph.components_spec (lt_size_of_link hbound)
  obtain ⟨hok, hperm, hsuppliers⟩ := orderFrom_of_acyclic hbound hcs hacyclic
  obtain ⟨hfirst, hlast⟩ := visitOrder_eq_orderFrom hbound
  refine ⟨_, hperm, hsuppliers, hfirst.trans hok, ?_⟩
  rw [hlast, hok]
  rfl

/-- A search that has been checked has found streams only. -/
theorem slotsBound_of_checkAcyclic (h : a.checkAcyclic a.supplyGraph.postorder = .ok ()) (i : Nat) :
    a.SlotsBound i := by
  intro s hs slot hslot
  have hsupplies : a.Supplies slot.supplier i := ⟨s, hs, slot, hslot, rfl⟩
  have hfound : slot.supplier ∈ a.supplyGraph.postorder :=
    (Digraph.late_foldl_visit _).mem_of_reaches (Digraph.mem_postorder hsupplies.lt_size)
      (.single (link_iff.2 hsupplies))
  refine Nat.lt_of_not_le fun hle => ?_
  have hfault := Result.forM_eq_ok.1 h _ (Digraph.mem_lastOfCircle hle hfound)
  rw [if_pos hle] at hfault
  cases hfault

/-- What is answered for takers first is an order of suppliers first, read from its end. -/
theorem visitOrder_consumersFirst_spec (h : a.visitOrder .consumersFirst = .ok is) :
    (∀ i, a.SlotsBound i) ∧ a.Acyclic ∧ a.SuppliersFirst is.reverse := by
  obtain ⟨_, hcheck, -⟩ := Result.bind_eq_ok.1 h
  have hbound := slotsBound_of_checkAcyclic hcheck
  have hcs := Digraph.components_spec (lt_size_of_link hbound)
  rw [(visitOrder_eq_orderFrom hbound).2] at h
  have hacyclic : a.Acyclic := by
    by_contra hcyclic
    obtain ⟨f, -, hf⟩ := orderFrom_of_cyclic hcs hcyclic
    rw [hf] at h
    cases h
  obtain ⟨hok, -, hfirst⟩ := orderFrom_of_acyclic hbound hcs hacyclic
  rw [hok] at h
  obtain rfl := Except.ok.inj h
  exact ⟨hbound, hacyclic, by rwa [List.reverse_reverse]⟩

/-! ## Visits -/

/-- Where every slot is bound to a stream, the orders that follow the supply are refused just if streams
supply each other, and then a call changes nothing. Otherwise each stream is visited once, after its
suppliers or before them, and the reports come in this order. Whoever lists the components of the supply
graph, each after those that it reaches, comes to the same. -/
theorem visits_follow_supply {st : Logged Arena} (hbound : ∀ i, st.state.SlotsBound i) (ticks m : Int) :
    (¬ st.state.Acyclic → ∃ f, f.kind? = some .cycle ∧ ∀ order, order ≠ .registration →
      st.state.visitOrder order = .error f ∧ tick ticks order m st = .error f st) ∧
    (st.state.Acyclic → ∃ is, is.Perm (List.range st.state.size) ∧ st.state.SuppliersFirst is ∧
      st.state.visitOrder .suppliersFirst = .ok is ∧ st.state.visitOrder .consumersFirst = .ok is.reverse) ∧
    st.state.visitOrder .registration = .ok (List.range st.state.size) ∧
    (∀ order is, st.state.visitOrder order = .ok is →
      (∀ reports t, tick ticks order m st = .ok reports t → reports.map StreamTick.index = is) ∧
      ((∀ s ∈ st.state.streams, ∃ period, s.recipe.period = .ok period ∧ 1 ≤ period) →
        AnswersUnlessLong st.least ((tick ticks order m).outcome st))) ∧
    ∀ cs, st.state.supplyGraph.Components cs →
      (¬ st.state.Acyclic → ∃ f, f.kind? = some .cycle ∧ st.state.orderFrom cs = .error f) ∧
      (st.state.Acyclic → ∃ is, st.state.orderFrom cs = .ok is ∧ is.Perm (List.range st.state.size) ∧
        st.state.SuppliersFirst is) := by
  have hsearch := Digraph.components_spec (lt_size_of_link hbound)
  obtain ⟨hfirst, hlast⟩ := visitOrder_eq_orderFrom hbound
  refine ⟨fun hcyclic => ?_, visitOrder_of_acyclic hbound, rfl,
    fun order is his => ⟨fun reports t h => ?_, fun hperiods => ?_⟩,
    fun cs hcs => ⟨orderFrom_of_cyclic hcs, fun hacyclic => ?_⟩⟩
  · obtain ⟨f, hkind, hf⟩ := orderFrom_of_cyclic hsearch hcyclic
    have horder (order : TickOrder) (horder : order ≠ .registration) : st.state.visitOrder order = .error f := by
      cases order with
      | registration => exact absurd rfl horder
      | suppliersFirst => rw [hfirst, hf]
      | consumersFirst => rw [hlast, hf]; rfl
    exact ⟨f, hkind, fun order hne => ⟨horder order hne, tick_of_unordered (horder order hne)⟩⟩
  · exact index_of_tick his h
  · exact answers_tick ⟨hbound, fun i s hs => hperiods s (List.mem_of_getElem? hs)⟩ his
  · obtain ⟨hok, hrest⟩ := orderFrom_of_acyclic hbound hcs hacyclic
    exact ⟨_, hok, hrest⟩

/-- A smelter that is bound to a mine behind it. -/
def lateMine : Arena :=
  ⟨[Stream.fresh (Recipe.every 1 Int.one_pos [⟨⟨0, 0⟩, 2⟩] [⟨⟨1, 0⟩, 1⟩]) [⟨⟨0, 0⟩, 1⟩] 1 8,
    Stream.fresh (Recipe.every 1 Int.one_pos [] [⟨⟨0, 0⟩, 1⟩]) [] 1 8]⟩

theorem lateMine_bound (i : Nat) : lateMine.SlotsBound i := by
  have hall : ∀ s ∈ lateMine.streams, ∀ slot ∈ s.inputs, slot.supplier < lateMine.size := by decide
  exact fun s hs => hall s (List.mem_of_getElem? hs)

theorem lateMine_acyclic : lateMine.Acyclic := by
  have hlater : ∀ e ∈ lateMine.streams.zipIdx, ∀ slot ∈ e.1.inputs, e.2 < slot.supplier := by decide
  have hsupplies {u i : Nat} (h : lateMine.Supplies u i) : i < u := by
    obtain ⟨s, hs, slot, hslot, rfl⟩ := h
    exact hlater (s, i) (List.mem_zipIdx_iff_getElem?.2 hs) slot hslot
  have hupstream {u i : Nat} (h : lateMine.Upstream u i) : i < u := by
    induction h with
    | single h => exact hsupplies h
    | tail _ h ih => exact Nat.lt_trans (hsupplies h) ih
  exact fun i hi => Nat.lt_irrefl i (hupstream hi)

/-- The mine is visited first, or last if its takers are to be first. -/
theorem visits_follow_supply_lateMine :
    ∃ is, is.Perm (List.range 2) ∧ lateMine.SuppliersFirst is ∧ lateMine.visitOrder .suppliersFirst = .ok is ∧
      ∃ reports t, tick 4 .consumersFirst 8 { state := lateMine, least := .info } = .ok reports t ∧
        reports.map StreamTick.index = is.reverse := by
  obtain ⟨-, hacyclic, -, htick, -⟩ :=
    @visits_follow_supply { state := lateMine, least := .info } lateMine_bound 4 8
  obtain ⟨is, hperm, hsuppliers, hfirst, hlast⟩ := hacyclic lateMine_acyclic
  obtain ⟨hreports, hanswers⟩ := htick _ _ hlast
  have hperiods : ∀ s ∈ lateMine.streams, ∃ period, s.recipe.period = .ok period ∧ 1 ≤ period := by
    intro s hs
    rcases List.mem_cons.1 hs with rfl | hs
    · exact ⟨1, rfl, Int.le_refl 1⟩
    · obtain rfl := List.mem_singleton.1 hs
      exact ⟨1, rfl, Int.le_refl 1⟩
  obtain ⟨reports, hok⟩ := (hanswers hperiods).exists_ok (by decide)
  have htick := Action.eq_ok_of_outcome hok
  exact ⟨is, hperm, hsuppliers, hfirst, reports, _, htick, hreports reports _ htick⟩

theorem isPositive_half : (Number.real 0.5).IsPositive := by decide +kernel

/-- A stream that makes nothing, twice a tick. -/
def halfTick : Arena := ⟨[Stream.fresh ⟨⟨1, .real 0.5, Int.one_nonneg, isPositive_half⟩, [], []⟩ [] 1 8]⟩

/-- A call does not answer where a period is no whole tick, even if it has an order of visits. -/
theorem tick_halfTick :
    (∀ i, halfTick.SlotsBound i) ∧ halfTick.Acyclic ∧ halfTick.visitOrder .suppliersFirst = .ok [0] ∧
      ∀ reports t, tick 1 .suppliersFirst 8 { state := halfTick } ≠ .ok reports t := by
  have hearlier : halfTick.BindsEarlier := by decide
  have hall : ∀ s ∈ halfTick.streams, ∀ slot ∈ s.inputs, slot.supplier < halfTick.size := by decide
  have hrun : (tick 1 .suppliersFirst 8).wp (fun _ _ => False) (fun _ _ => True) { state := halfTick } := by
    decide +kernel
  refine ⟨fun i s hs => hall s (List.mem_of_getElem? hs), hearlier.acyclic, visitOrder_eq_range hearlier, ?_⟩
  intro reports t h
  rwa [Action.wp, h] at hrun

end Conveyor.Arena
