-- SUMMARY: Where streams are bound to earlier streams only, no query, balancing or tick is refused.
import Conveyor.Arena.Simulation
import Conveyor.Proofs.Efficiency.Formula
import Conveyor.Proofs.Efficiency.Supply
import Conveyor.Proofs.Faults
import Conveyor.Proofs.Graph.Postorder

/-!
# Arenas without cycles

Three walks refuse a stream that supplies itself: the query for an efficiency, balancing, and the search
for an order of visits. Along bindings to earlier streams the indices go down, so none of them comes back
to where it has been. Everything else that stops them is a breakdown of the arithmetic.
-/

namespace Conveyor

namespace Arena

variable {a : Arena}

/-! ## Queries -/

open Classical in
/-- A query meets a stream again only where some stream depends on itself. -/
theorem efficiency_unrefused {i : Nat} (hi : a.AcyclicFrom i) : Unrefused (a.efficiency i) := by
  refine AcyclicFrom.induction hi fun i hi ih => ?_
  cases hs : a.stream? i with
  | none =>
    rw [efficiency_of_none hs]
    exact Faults.error rfl
  | some s =>
    cases hleaf : s.isLeaf with
    | true =>
      rw [efficiency_of_isLeaf hs hleaf]
      exact Faults.ok _
    | false =>
      -- Only what is asked for matters, so all other efficiencies may be taken to break down.
      let asked (u : Nat) := if a.Asks i u then a.efficiency u else .error .noSuchIndex
      have hasked (u : Nat) : Unrefused (asked u) := Faults.ite (ih u) fun _ => Faults.error rfl
      rw [efficiency_of_suppliers hi hs hleaf, efficiencyBy_congr hs fun u hu => (if_pos hu).symm]
      exact Unrefused.efficiencyBy hasked i s

theorem rateOf_unrefused {i : Nat} (h : Unrefused (a.efficiency i)) (p : Product) :
    Unrefused (a.rateOf i p) :=
  rateOf_eq (a := a) ▸ Unrefused.realizedBy h p

/-- A slot asks its supplier for a rate only if that makes the product at all. -/
theorem ask_unrefused {ε : Float} {i : Nat} {slot : Slot}
    (h : a.Makes slot.supplier slot.product → Unrefused (a.efficiency slot.supplier)) :
    Unrefused (a.ask ε i slot) := by
  refine Faults.bind (Unrefused.stream _ _) fun t ht => Faults.bind (Unrefused.stream _ _) fun s _ => ?_
  refine Faults.bind (Unrefused.inflowOf _ _) fun inflow _ => Faults.bind (Unrefused.times _ _) fun optimal _ => ?_
  refine Faults.bind (Unrefused.outflowOf _ _) fun outflow houtflow => ?_
  refine Faults.bind (Unrefused.times _ _) fun capacity hcapacity => ?_
  refine Faults.ite (fun _ => Faults.ok _) fun hzero => Faults.bind (Unrefused.isShortOf _ _ _) fun short _ => ?_
  refine Faults.ite (fun _ => ?_) fun _ => ?_
  · exact Faults.bind (Unrefused.ratio _ _) fun needed _ =>
      Faults.bind (Unrefused.raisedMultiplier _ _ _) fun mult _ => Faults.ok _
  have hsome := Rate.isZero_of_times hcapacity (eq_false_of_ne_true hzero)
  have hrate := rateOf_unrefused (h ⟨t, stream_eq_ok ht, outflow, houtflow, hsome⟩) slot.product
  refine Faults.bind hrate fun realized _ => ?_
  cases realized with
  | none => exact Faults.ok _
  | some realized =>
    exact Faults.bind (Unrefused.isShortOf _ _ _) fun starved _ => Faults.ite (fun _ => Faults.ok _) fun _ => Faults.ok _

theorem Compares.makes_product {i : Nat} {slot : Slot} {s t : Stream} {inflow optimal outflow capacity : Rate}
    (h : a.Compares i slot t s inflow optimal outflow capacity) (hsome : capacity.isZero = false) :
    a.Makes slot.supplier slot.product :=
  ⟨t, h.supplier, outflow, h.makes, Rate.isZero_of_times h.makesAll hsome⟩

end Arena

/-! ## Balancing -/

namespace Balancing

/-- The action keeps `P` and is not refused. -/
abbrev Goes {α : Type} (P : Balancing → Prop) (act : Action Balancing α)
    (Q : α → Balancing → Prop) : Prop :=
  Action.Triple P act Q fun f _ => f.kind? = none

/-- Balancing goes along links that lead back to no stream that it visits: a slot is a link if its
supplier makes the product of the slot. The efficiencies that it asks for are not refused. -/
structure Guided (Link : Nat → Nat → Prop) (Visited : Nat → Prop) (P : Balancing → Prop) : Prop where
  link : ∀ b c, P b → P c → ∀ i s, b.arena.stream? i = some s → ∀ slot ∈ s.inputs,
    c.arena.Makes slot.supplier slot.product → Link i slot.supplier
  visits : ∀ i u, Visited i → Link i u → Visited u
  acyclic : ∀ i, Visited i → ¬ Relation.TransGen Link i i
  efficiency : ∀ b, P b → ∀ i, Visited i → Unrefused (b.arena.efficiency i)
  raise : ∀ b, P b → ∀ u s s' n, b.arena.stream? u = some s → s.mult < n → s.scale n = .ok s' →
    P (b.afterRaise u s s')

variable {α β : Type} {P : Balancing → Prop} {Q : α → Balancing → Prop} {Link : Nat → Nat → Prop}
  {Visited : Nat → Prop} {ε : Float} {n i : Nat}

theorem goes_query {f : Arena → Except Fault β} {k : β → Action Balancing α}
    (hf : ∀ b, P b → Unrefused (f b.arena))
    (hk : ∀ x b, P b → f b.arena = .ok x → Goes (· = b) (k x) Q) : Goes P (query f >>= k) Q := by
  refine Action.Triple.bind (R := fun x b => P b ∧ f b.arena = .ok x)
    (Action.Triple.bind_current fun b hb => ?_) fun x => ?_
  · exact Action.Triple.lift (fun _ hx c hc => hc ▸ ⟨hb, hx⟩) fun fault hfault _ _ => hf b hb fault hfault
  · exact Action.Triple.fix fun b hb => hk x b hb.1 hb.2

theorem goes_lift {x : Except Fault β} {k : β → Action Balancing α} (hx : Unrefused x)
    (hk : ∀ y, x = .ok y → Goes P (k y) Q) : Goes P (liftM x >>= k) Q :=
  Action.Triple.bind_lift (fun fault hfault _ _ => hx fault hfault) hk

namespace Guided

theorem goes_scale (h : Guided Link Visited P) (u : Nat) (new : Int) :
    Goes P (scale u new) fun _ => P := by
  unfold scale
  refine Action.Triple.bind_current fun b hb => ?_
  refine goes_lift (Unrefused.stream _ _) fun s hs => ?_
  refine Action.Triple.ite (fun _ => Action.Triple.pure fun c hc => hc ▸ hb) fun hlt => ?_
  refine goes_lift (Unrefused.scale _ _) fun s' hscale => ?_
  have hafter := h.raise b hb u s s' new (Arena.stream_eq_ok hs) (Int.not_le.1 hlt) hscale
  rw [afterRaise_of_scale hscale] at hafter
  refine Action.Triple.bind (R := fun _ => P) (Action.Triple.assign fun _ _ => hafter) fun _ => ?_
  exact Action.Triple.bind_report (fun _ _ => rfl) (Action.Triple.pure fun _ hc => hc)

/-- Suppliers that wait for a raise are linked to stream `i`. -/
def Waiting (Link : Nat → Nat → Prop) (P : Balancing → Prop) (i : Nat) (pending : Pending)
    (b : Balancing) : Prop :=
  P b ∧ ∀ u ∈ pending.keys, Link i u

theorem goes_slot (h : Guided Link Visited P) (hi : Visited i)
    {balance : Nat → Action Balancing Unit} {slot : Slot}
    (hlink : ∀ b, P b → b.arena.Makes slot.supplier slot.product → Link i slot.supplier)
    (hbalance : Link i slot.supplier → Goes P (balance slot.supplier) fun _ => P) (pending : Pending) :
    Goes (Waiting Link P i pending) (Balancing.slot balance ε i pending slot)
      fun pending' => Waiting Link P i pending' := by
  rw [slot_eq]
  refine goes_query (fun b hb => Arena.ask_unrefused fun hmakes =>
    h.efficiency b hb.1 _ (h.visits i _ hi (hlink b hb.1 hmakes))) fun ask b hb hask => ?_
  have hdone : Goes (· = b) (pure pending : Action Balancing Pending)
      fun pending' => Waiting Link P i pending' := Action.Triple.pure fun _ hc => hc ▸ hb
  obtain ⟨t, s, inflow, optimal, outflow, capacity, hcompares, hweighs⟩ := Arena.exists_compares hask
  cases hweighs with
  | unsupplied hzero => exact Action.Triple.bind_report (fun _ _ => rfl) hdone
  | copies hsome hshort hneeded hraised =>
    have hlinked := hlink b hb.1 (hcompares.makes_product hsome)
    exact Action.Triple.pure fun c hc => ⟨hc ▸ hb.1, pending.forall_keys_raise hb.2 hlinked _⟩
  | unmade hsome hshort hrate => exact hdone
  | served hsome hshort hrate hserved => exact hdone
  | starved hsome hshort hrate hstarved =>
    have hlinked := hlink b hb.1 (hcompares.makes_product hsome)
    refine Action.Triple.bind (R := fun _ c => P c) ?_ fun _ => Action.Triple.pure fun _ hc => ⟨hc, hb.2⟩
    exact (hbalance hlinked).weaken (fun _ hc => hc ▸ hb.1) (fun _ _ hc => hc) fun _ _ hf => hf

/-- Balancing never meets a stream that is being balanced: links lead from every stream on the path
to where it is. -/
theorem goes_balance (h : Guided Link Visited P) (path : List Nat)
    (hpath : ∀ j ∈ path, Relation.TransGen Link j i) (hi : Visited i) :
    Goes P (balance ε n path i) fun _ => P := by
  induction hr : Path.remaining n path using Nat.strong_induction_on generalizing path i with
  | _ r ih =>
  subst hr
  rw [balance]
  split
  next hmem => exact absurd (hpath i hmem) (h.acyclic i hi)
  next hnew =>
  refine goes_query (fun b hb => h.efficiency b hb i hi) fun efficiency b hb _ => ?_
  refine Action.Triple.ite (fun _ => Action.Triple.pure fun _ hc => hc ▸ hb) fun _ => ?_
  split
  swap
  · exact Action.Triple.pure fun _ hc => hc ▸ hb
  next hlt =>
  have hdeeper (u : Nat) (hu : Link i u) : Goes P (balance ε n (i :: path) u) fun _ => P := by
    refine ih _ (Path.remaining_cons_lt hlt hnew) (i :: path) ?_ (h.visits i u hi hu) rfl
    exact List.forall_mem_cons.2 ⟨.single hu, fun j hj => .tail (hpath j hj) hu⟩
  refine goes_query (fun _ _ => Unrefused.stream _ _) fun s c hc hs => ?_
  subst c
  have hlink (slot : Slot) (hslot : slot ∈ s.inputs) (c : Balancing) (hc : P c) :
      c.arena.Makes slot.supplier slot.product → Link i slot.supplier :=
    h.link b c hb hc i s (Arena.stream_eq_ok hs) slot hslot
  refine Action.Triple.bind (R := fun pending c => Waiting Link P i pending c) ?_ fun pending => ?_
  · refine Action.Triple.weaken (P := fun c => Waiting Link P i ∅ c) (Action.Triple.foldlM
      (fun pending slot hslot => h.goes_slot hi (hlink slot hslot) (hdeeper _) pending) ∅) ?_
      (fun _ _ hc => hc) fun _ _ hf => hf
    exact fun c hc => ⟨hc ▸ hb, fun _ hu => absurd hu List.not_mem_nil⟩
  refine Action.Triple.fix fun c hc => Action.Triple.weaken (P := P)
    (Action.Triple.forM fun raise hraise => ?_) (fun d hd => hd ▸ hc.1) (fun _ _ hd => hd) fun _ _ hf => hf
  refine Action.Triple.bind (h.goes_scale raise.1 raise.2) fun made => ?_
  refine Action.Triple.ite (fun _ => hdeeper raise.1 (hc.2 _ (List.mem_map_of_mem hraise))) fun _ => ?_
  exact Action.Triple.pure fun _ hd => hd

end Guided

end Balancing

namespace Arena

variable {a : Arena}

/-- Where `P` guides balancing, what raises keep is kept, and nothing is refused. -/
theorem solve_goes {Link : Nat → Nat → Prop} {Visited : Nat → Prop} {P : Arena → Prop} {i : Nat}
    (h : Balancing.Guided Link Visited fun b => P b.arena) (hi : Visited i) (ε : Float) :
    Action.Triple P (solve i ε) (fun _ => P) fun f _ => f.kind? = none := by
  unfold solve
  refine Action.Triple.focus (S := fun _ b => P b.arena) (F := fun f _ => f.kind? = none) ?_
    (fun _ _ _ _ hb => hb) fun _ _ _ _ hf => hf
  intro a ha
  refine Action.Triple.bind_current fun b hb => ?_
  subst b
  refine Action.Triple.bind (R := fun _ b => P b.arena) ?_ fun _ =>
    Action.Triple.bind_current fun _ hb => Action.Triple.pure fun _ hc => hc ▸ hb
  exact (h.goes_balance [] (fun _ hj => absurd hj List.not_mem_nil) hi).weaken (fun _ hb => hb ▸ ha)
    (fun _ _ hb => hb) fun _ _ hf => hf

/-- Bindings to earlier streams guide balancing down. -/
theorem guided_of_bindsEarlier :
    Balancing.Guided (fun i u => u < i) (fun _ => True) fun b => b.arena.BindsEarlier where
  link _ _ hb _ _ s hs slot hslot _ := BindsEarlier.lt hb ⟨s, hs, slot, hslot, rfl⟩
  visits _ _ _ _ := trivial
  acyclic i _ hi := by
    have hdown : ∀ j, Relation.TransGen (fun i u : Nat => u < i) i j → j < i := by
      intro j hj
      induction hj with
      | single hj => exact hj
      | tail _ hj ih => exact Nat.lt_trans hj ih
    exact Nat.lt_irrefl i (hdown i hi)
  efficiency _ hb i _ := efficiency_unrefused (BindsEarlier.acyclicFrom hb i)
  raise b hb _ _ _ _ hs hn hscale :=
    (Raised.replace hs (Stream.raised_of_scale hn hscale)).bindsEarlier hb

theorem solve_unrefused (i : Nat) (ε : Float) :
    Action.Triple BindsEarlier (solve i ε) (fun _ => BindsEarlier) fun f _ => f.kind? = none :=
  solve_goes guided_of_bindsEarlier trivial ε

/-! ## Visiting orders -/

theorem BindsEarlier.lt_of_next (ha : a.BindsEarlier) {i u : Nat} (hu : u ∈ a.supplyGraph.next i) : u < i := by
  cases hs : a.stream? i with
  | none => simp [supplyGraph, hs] at hu
  | some s =>
    simp only [supplyGraph, hs, Option.map_some, Option.getD_some] at hu
    exact ha.lt (supplies_of_mem hs hu)

theorem circle_eq_nil (ha : a.BindsEarlier) (v : Nat) : a.supplyGraph.circle v = [] := by
  have hnot : v ∉ a.supplyGraph.reachable v := fun hv =>
    Nat.lt_irrefl v (Digraph.lt_of_mem_reachable (fun _ _ => ha.lt_of_next) hv)
  exact if_neg hnot

theorem visitOrder_unrefused (ha : a.BindsEarlier) (order : TickOrder) :
    Unrefused (a.visitOrder order) := by
  have hcheck (is : List Nat) : Unrefused (a.checkAcyclic is) := by
    refine Faults.forM fun v _ => Faults.ite (fun _ => Faults.error rfl) fun _ => ?_
    rw [circle_eq_nil ha v]
    exact Faults.ok ()
  cases order with
  | registration => exact Faults.ok _
  | suppliersFirst => exact (hcheck _).bind fun _ _ => Faults.ok _
  | consumersFirst => exact (hcheck _).bind fun _ _ => Faults.ok _

/-- Streams that are bound to earlier ones only are in the order of their indices already. -/
theorem visitOrder_eq_range (ha : a.BindsEarlier) :
    a.visitOrder .suppliersFirst = .ok (List.range a.size) := by
  have horder : a.supplyGraph.postorder = List.range a.size :=
    Digraph.postorder_eq_range fun _ _ => ha.lt_of_next
  have hcheck : a.checkAcyclic (List.range a.size) = .ok () := by
    refine Result.forM_eq_ok.2 fun v hv => ?_
    have hlt := List.mem_range.1 (Digraph.lastOfCircle_subset _ hv)
    rw [if_neg (Nat.not_le.2 hlt), circle_eq_nil ha v]
  unfold visitOrder
  simp only [horder, hcheck]
  rfl

/-! ## Passing time -/

section Time

/-- The action is not refused, whatever it starts from. -/
abbrev NeverRefused {α : Type} (act : Action Arena α) : Prop :=
  Action.Triple (fun _ => True) act (fun _ _ => True) fun f _ => f.kind? = none

variable {α β : Type} {m : Int}

theorem NeverRefused.pure (x : α) : NeverRefused (pure x) := Action.Triple.pure fun _ _ => trivial

theorem NeverRefused.bind {act : Action Arena β} {k : β → Action Arena α} (h : NeverRefused act)
    (hk : ∀ b, NeverRefused (k b)) : NeverRefused (act >>= k) :=
  Action.Triple.bind h hk

theorem NeverRefused.lift {x : Except Fault α} (hx : Unrefused x) :
    NeverRefused (liftM x : Action Arena α) :=
  Action.Triple.lift (fun _ _ _ _ => trivial) fun f hf _ _ => hx f hf

theorem NeverRefused.bind_current {k : Arena → Action Arena α} (hk : ∀ a, NeverRefused (k a)) :
    NeverRefused (Action.current >>= k) :=
  Action.Triple.bind_current fun a _ => (hk a).weaken (fun _ _ => trivial) (fun _ _ h => h) fun _ _ h => h

theorem NeverRefused.assign (b : Arena) : NeverRefused (Action.assign b) := fun _ _ => trivial

theorem NeverRefused.update (f : Arena → Arena) : NeverRefused (Action.update f) := fun _ _ => trivial

theorem NeverRefused.report (e : Event) : NeverRefused (Action.report e) :=
  Action.Triple.report (fun _ _ => trivial) fun _ _ => rfl

theorem pullSlot_neverRefused (i : Nat) (slot : Slot) : NeverRefused (pullSlot m i slot) := by
  refine .bind (.update _) fun _ => .bind_current fun b => ?_
  exact .bind (.lift (Unrefused.stream _ _)) fun _ => .update _

theorem attempt_neverRefused (i : Nat) : NeverRefused (attempt m i) := by
  have hpull : NeverRefused (pull m i) :=
    .bind_current fun a => .bind (.lift (Unrefused.stream a i)) fun _ =>
      Action.Triple.forM fun slot _ => pullSlot_neverRefused i slot
  refine .bind hpull fun _ => .bind_current fun a => .bind (.lift (Unrefused.stream a i)) fun s => ?_
  cases s.produce? with
  | none => exact .pure false
  | some s' => exact .bind (.assign _) fun _ => .pure true

theorem runCycles_neverRefused (i n completed : Nat) : NeverRefused (runCycles m i n completed) := by
  induction n generalizing completed with
  | zero => exact .pure completed
  | succ n ih =>
    refine .bind (attempt_neverRefused i) fun done => ?_
    exact Action.Triple.ite (fun _ => ih _) fun _ => NeverRefused.pure _

theorem advance_neverRefused (i : Nat) (ticks : Int) : NeverRefused (advance i ticks m) := by
  refine .bind_current fun a => .bind (.lift (Unrefused.stream a i)) fun s => ?_
  refine .bind (.lift (Unrefused.truncate _)) fun period => ?_
  refine .bind (.lift (Unrefused.clockAdvance _ _ _)) fun _ => .bind (.assign _) fun _ => ?_
  refine .bind (runCycles_neverRefused i _ 0) fun completed => .bind ?_ fun _ => .pure _
  refine .bind_current fun b => Action.Triple.forM fun entry _ => ?_
  refine Action.Triple.ite (fun _ => ?_) fun _ => NeverRefused.pure _
  exact NeverRefused.bind (.lift (Unrefused.buffer b i _)) fun held => .report _

end Time

theorem tick_unrefused (ticks : Int) (order : TickOrder) (m : Int) :
    Action.Triple BindsEarlier (tick ticks order m) (fun _ _ => True) fun f _ => f.kind? = none := by
  refine Action.Triple.bind_current fun a ha => ?_
  refine Action.Triple.bind_lift (fun f hf _ _ => visitOrder_unrefused ha order f hf) fun is _ => ?_
  exact Action.Triple.weaken (Action.Triple.mapM fun i _ => advance_neverRefused i ticks)
    (fun _ _ => trivial) (fun _ _ h => h) fun _ _ hf => hf

end Arena

end Conveyor
