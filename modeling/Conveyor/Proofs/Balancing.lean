-- SUMMARY: What balancing keeps: whatever its raises keep, of suppliers that run at least one copy.
import Conveyor.Proofs.Action
import Conveyor.Proofs.Asking
import Conveyor.Proofs.Stream
import Mathlib.Algebra.Order.Ring.Int

/-!
# Balancing, raise by raise

Balancing changes an arena by raises only. A raise was pending since its supplier was found to run
some copies, and multipliers are never lowered, so at least one copy runs when it is made. What these
raises keep, a whole walk keeps, whether it ends or is stopped half-way.
-/

namespace Conveyor

/-- Stream `u` is bound to an input slot of stream `i`. -/
def Arena.Supplies (a : Arena) (u i : Nat) : Prop :=
  ∃ s, a.stream? i = some s ∧ ∃ slot ∈ s.inputs, slot.supplier = u

theorem Arena.supplies_of_mem {a : Arena} {i u : Nat} {s : Stream} (hs : a.stream? i = some s)
    (hu : u ∈ s.suppliers) : a.Supplies u i := by
  obtain ⟨slot, hslot, rfl⟩ := List.mem_map.1 (List.mem_eraseDups.1 hu)
  exact ⟨s, hs, slot, hslot, rfl⟩

namespace Rate

variable {r c : Rate} {copies : Int}

theorem mul_pos_of_times (h : r.times copies = .ok c) (hc : c.isZero = false) : 0 < r.amount * copies := by
  unfold times at h
  split at h
  · obtain rfl := Except.ok.inj h
    cases hc
  · unfold make at h
    split at h
    next hnonneg =>
      split at h
      · obtain rfl := Except.ok.inj h
        have hne : r.amount * copies ≠ 0 := of_decide_eq_false hc
        omega
      · cases h
    · cases h

/-- Copies that make anything are at least one. -/
theorem one_le_of_times (h : r.times copies = .ok c) (hc : c.isZero = false) : 1 ≤ copies :=
  pos_of_mul_pos_right (mul_pos_of_times h hc) r.amount_nonneg

/-- Copies of nothing make nothing. -/
theorem isZero_of_times (h : r.times copies = .ok c) (hc : c.isZero = false) : r.isZero = false := by
  refine decide_eq_false fun hzero => ?_
  have hpos := mul_pos_of_times h hc
  rw [hzero, Int.zero_mul] at hpos
  exact Int.lt_irrefl 0 hpos

end Rate

namespace Balancing

variable {P : Balancing → Prop}

/-! ## Queries -/

theorem bind_query {α β : Type} {b : Balancing} {f : Arena → Except Fault β}
    {k : β → Action Balancing α} {Q : α → Balancing → Prop} (hb : P b)
    (hk : ∀ x, f b.arena = .ok x → Action.Triple (· = b) (k x) Q fun _ => P) :
    Action.Triple (· = b) (query f >>= k) Q fun _ => P := by
  refine Action.Triple.bind (R := fun x c => f b.arena = .ok x ∧ c = b) ?_ ?_
  · refine Action.Triple.bind_current fun c hc => ?_
    subst c
    exact Action.Triple.lift (fun x hx c hc => ⟨hx, hc⟩) fun _ _ c hc => hc ▸ hb
  · exact fun x => Action.Triple.fix fun c ⟨hx, hc⟩ => hc ▸ hk x hx

/-! ## Raises -/

/-- What is so of every stream that waits for a raise, and of one more, is so of all that wait with it. -/
theorem Pending.forall_keys_raise {Q : Nat → Prop} {u : Nat} (pending : Pending)
    (h : ∀ v ∈ pending.keys, Q v) (hu : Q u) (mult : Int) : ∀ v ∈ (pending.raise u mult).keys, Q v := by
  intro v hv
  rw [Pending.raise, Table.keys_insert] at hv
  split at hv
  · exact h v hv
  · rcases List.mem_append.1 hv with hv | hv
    · exact h v hv
    · exact List.mem_singleton.1 hv ▸ hu

/-- At least one copy of stream `u` runs. -/
def HasCopies (b : Balancing) (u : Nat) : Prop := ∃ s, b.arena.stream? u = some s ∧ 1 ≤ s.mult

/-- The arena and the log after stream `u`, which was `s`, has become `s'`. -/
def afterRaise (b : Balancing) (u : Nat) (s s' : Stream) : Balancing where
  arena := b.arena.modify u fun _ => s'
  changes := b.changes ++ [⟨u, s.mult, s'.mult⟩]

theorem afterRaise_of_scale {s s' : Stream} {n : Int} (h : s.scale n = .ok s') (b : Balancing) (u : Nat) :
    b.afterRaise u s s' = ⟨b.arena.modify u fun _ => s', b.changes ++ [⟨u, s.mult, n⟩]⟩ := by
  have hnew : s'.mult = n := by rw [Stream.scale_eq_ok h]
  rw [afterRaise, hnew]

/-- Whatever stream is visited, its suppliers may be raised, and raising one keeps the property. -/
structure ClosedUnderRaise (Visited Raisable : Nat → Prop) (P : Balancing → Prop) : Prop where
  visits : ∀ u, Raisable u → Visited u
  suppliers : ∀ b, P b → ∀ i u, Visited i → b.arena.Supplies u i → Raisable u
  raise : ∀ b, P b → ∀ u s s' n, Raisable u → b.arena.stream? u = some s → 1 ≤ s.mult →
    s.mult < n → s.scale n = .ok s' → P (b.afterRaise u s s')

variable {Visited Raisable : Nat → Prop}

namespace ClosedUnderRaise

theorem and_hasCopies (h : ClosedUnderRaise Visited Raisable P) (us : List Nat) :
    ClosedUnderRaise Visited Raisable fun b => P b ∧ ∀ u ∈ us, b.HasCopies u where
  visits := h.visits
  suppliers b hb := h.suppliers b hb.1
  raise b hb u s s' n hu hs hmult hn hscale := by
    refine ⟨h.raise b hb.1 u s s' n hu hs hmult hn hscale, fun v hv => ?_⟩
    obtain ⟨t, ht, hcopies⟩ := hb.2 v hv
    unfold HasCopies afterRaise
    simp only
    rw [Arena.stream?_modify, ht]
    split
    · refine ⟨s', rfl, ?_⟩
      rw [Stream.scale_eq_ok hscale]
      exact Int.le_of_lt (Int.lt_of_le_of_lt hmult hn)
    · exact ⟨t, rfl, hcopies⟩

/-- A raise of a stream that runs some copies keeps the property. -/
theorem keeps_scale (h : ClosedUnderRaise Visited Raisable P) {u : Nat} (hu : Raisable u) (n : Int) :
    Action.Triple (fun b => P b ∧ b.HasCopies u) (scale u n) (fun _ => P) fun _ => P := by
  unfold scale
  apply Action.Triple.bind_current
  intro b ⟨hb, s, hs, hmult⟩
  apply Action.Triple.bind_lift (fun _ _ c hc => hc ▸ hb)
  intro t ht
  obtain rfl := Option.some.inj (hs.symm.trans (Arena.stream_eq_ok ht))
  refine Action.Triple.ite (fun _ => Action.Triple.pure fun c hc => hc ▸ hb) fun hn => ?_
  apply Action.Triple.bind_lift (fun _ _ c hc => hc ▸ hb)
  intro s' hscale
  have hafter := h.raise b hb u s s' n hu hs hmult (Int.not_le.1 hn) hscale
  rw [afterRaise_of_scale hscale] at hafter
  apply Action.Triple.bind (R := fun _ => P) (Action.Triple.assign fun _ _ => hafter)
  intro _
  apply Action.Triple.bind Action.Keeps.report
  exact fun _ => Action.Triple.pure fun _ hc => hc

/-- What is pending are raises of suppliers that run some copies. -/
structure Waiting (Raisable : Nat → Prop) (P : Balancing → Prop) (pending : Pending)
    (b : Balancing) : Prop where
  holds : P b
  copies : ∀ u ∈ pending.keys, b.HasCopies u
  raisable : ∀ u ∈ pending.keys, Raisable u

theorem Waiting.raise {pending : Pending} {b : Balancing} {u : Nat} (hb : Waiting Raisable P pending b)
    (hcopies : b.HasCopies u) (hu : Raisable u) (mult : Int) :
    Waiting Raisable P (pending.raise u mult) b where
  holds := hb.holds
  copies := pending.forall_keys_raise hb.copies hcopies mult
  raisable := pending.forall_keys_raise hb.raisable hu mult

/-- Balancing in between leaves what is pending, if it keeps the property and whatever copies run. -/
theorem Waiting.keeps_pending {pending : Pending} {b : Balancing} {act : Action Balancing Unit}
    (hb : Waiting Raisable P pending b)
    (hact : Action.Keeps (fun c => P c ∧ ∀ u ∈ pending.keys, c.HasCopies u) act) :
    Action.Triple (· = b) (act >>= fun _ => pure pending)
      (fun pending' => Waiting Raisable P pending') fun _ => P := by
  refine Action.Triple.bind (R := fun _ c => P c ∧ ∀ u ∈ pending.keys, c.HasCopies u) ?_ fun _ => ?_
  · exact hact.weaken (fun c hc => hc ▸ ⟨hb.holds, hb.copies⟩) (fun _ _ hc => hc) fun _ _ hc => hc.1
  · exact Action.Triple.pure fun c hc => ⟨hc.1, hc.2, hb.raisable⟩

/-- A slot adds its supplier to what is pending, or has it balanced, or neither. -/
theorem keeps_slot {balance : Nat → Action Balancing Unit} {ε : Float} {i : Nat} {slot : Slot}
    (hslot : Raisable slot.supplier)
    (hbalance : ∀ us : List Nat,
      Action.Keeps (fun b => P b ∧ ∀ u ∈ us, b.HasCopies u) (balance slot.supplier))
    (pending : Pending) :
    Action.Triple (Waiting Raisable P pending) (Balancing.slot balance ε i pending slot)
      (fun pending' => Waiting Raisable P pending') fun _ => P := by
  refine Action.Triple.fix fun b hb => ?_
  have hdone : Action.Triple (· = b) (pure pending : Action Balancing Pending)
      (fun pending' => Waiting Raisable P pending') fun _ => P :=
    Action.Triple.pure fun c hc => hc ▸ hb
  rw [slot_eq]
  refine bind_query hb.holds fun ask hask => ?_
  obtain ⟨t, s, inflow, optimal, outflow, capacity, hcompares, hweighs⟩ := Arena.exists_compares hask
  cases hweighs with
  | unsupplied hzero =>
    refine Action.Triple.bind (R := fun _ c => c = b) (Action.Triple.report ?_ ?_) fun _ => hdone
    · exact fun _ hc => hc
    · exact fun _ hc => hc ▸ hb.holds
  | copies hsome hshort hneeded hraised =>
    have hcopies : b.HasCopies slot.supplier :=
      ⟨t, hcompares.supplier, Rate.one_le_of_times hcompares.makesAll hsome⟩
    exact Action.Triple.pure fun c hc => hc ▸ hb.raise hcopies hslot _
  | unmade hsome hshort hrate => exact hdone
  | served hsome hshort hrate hserved => exact hdone
  | starved hsome hshort hrate hstarved => exact hb.keeps_pending (hbalance pending.keys)

/-- Balancing a stream keeps what its raises keep. The walk is bounded by its path, so the induction
is on what is not on the path yet. -/
theorem keeps_balance (h : ClosedUnderRaise Visited Raisable P) (ε : Float) (n : Nat)
    (path : List Nat) {i : Nat} (hi : Visited i) : Action.Keeps P (balance ε n path i) := by
  induction hr : Path.remaining n path using Nat.strong_induction_on generalizing P path i with
  | _ r ih =>
  subst hr
  rw [balance]
  split
  · exact Action.Keeps.lift
  next hpath =>
  refine Action.Triple.fix fun b hb => bind_query hb fun efficiency _ => ?_
  refine Action.Triple.ite (fun _ => Action.Triple.pure fun c hc => hc ▸ hb) fun _ => ?_
  split
  next hlt =>
    have hdeeper {Q : Balancing → Prop} (hQ : ClosedUnderRaise Visited Raisable Q) {u : Nat}
        (hu : Raisable u) : Action.Keeps Q (balance ε n (i :: path) u) :=
      ih _ (Path.remaining_cons_lt hlt hpath) hQ (i :: path) (h.visits u hu) rfl
    refine bind_query hb fun s hs => ?_
    have hsuppliers : ∀ slot ∈ s.inputs, Raisable slot.supplier := fun slot hslot =>
      h.suppliers b hb i slot.supplier hi ⟨s, Arena.stream_eq_ok hs, slot, hslot, rfl⟩
    apply Action.Triple.bind (R := fun pending => Waiting Raisable P pending)
    · have hslots : Action.Triple (fun c => Waiting Raisable P ∅ c)
          (s.inputs.foldlM (Balancing.slot (balance ε n (i :: path)) ε i) ∅)
          (fun pending => Waiting Raisable P pending) fun _ => P :=
        Action.Triple.foldlM (fun pending slot hslot => keeps_slot (hsuppliers slot hslot)
          (fun us => hdeeper (h.and_hasCopies us) (hsuppliers slot hslot)) pending) ∅
      exact hslots.weaken (fun c hc => hc ▸ ⟨hb, fun _ hu => absurd hu List.not_mem_nil,
        fun _ hu => absurd hu List.not_mem_nil⟩) (fun _ _ hc => hc) fun _ _ hc => hc
    intro pending
    refine Action.Triple.fix fun c hc => ?_
    have hclosed := h.and_hasCopies pending.keys
    refine Action.Triple.weaken (P := fun d => P d ∧ ∀ u ∈ pending.keys, d.HasCopies u)
      (Action.Keeps.forM fun raise hraise => ?_) (fun d hd => hd ▸ ⟨hc.holds, hc.copies⟩)
      (fun _ _ hd => hd.1) fun _ _ hd => hd.1
    have hu : raise.1 ∈ pending.keys := List.mem_map_of_mem hraise
    apply Action.Keeps.bind
    · exact (hclosed.keeps_scale (hc.raisable _ hu) raise.2).weaken (fun d hd => ⟨hd, hd.2 _ hu⟩)
        (fun _ _ hd => hd) fun _ _ hd => hd
    · exact fun _ => Action.Triple.ite (fun _ => hdeeper hclosed (hc.raisable _ hu))
        fun _ => Action.Keeps.pure
  next => exact Action.Triple.pure fun c hc => hc ▸ hb

end ClosedUnderRaise

end Balancing

/-- What raises keep of an arena, with the raises so far, is kept by balancing as a whole. -/
theorem Arena.triple_solve {P : Balancing → Prop} {Visited Raisable : Nat → Prop}
    (h : Balancing.ClosedUnderRaise Visited Raisable P) {i : Nat} (hi : Visited i) (ε : Float) :
    Action.Triple (fun a => P ⟨a, []⟩) (solve i ε) (fun changes a => P ⟨a, changes⟩)
      fun _ a => ∃ changes, P ⟨a, changes⟩ := by
  unfold solve
  refine Action.Triple.focus (S := fun changes b => b.changes = changes ∧ P b)
    (F := fun _ b => P b) (fun a ha => ?_) ?_ fun _ _ _ b hb => ⟨b.changes, hb⟩
  · apply Action.Triple.bind_current
    intro b hb
    subst b
    apply Action.Triple.bind (R := fun _ b => P b)
    · exact (h.keeps_balance ε _ [] hi).weaken (fun b hb => hb ▸ ha) (fun _ _ hb => hb)
        fun _ _ hb => hb
    · exact fun _ => Action.Triple.bind_current fun b hb =>
        Action.Triple.pure fun c hc => by subst c; exact ⟨rfl, hb⟩
  · rintro _ _ changes b ⟨rfl, hb⟩
    exact hb

/-- What every raise keeps of an arena, balancing keeps. -/
theorem Balancing.ClosedUnderRaise.keeps_solve {P : Arena → Prop}
    (h : ClosedUnderRaise (fun _ => True) (fun _ => True) fun b => P b.arena) (i : Nat) (ε : Float) :
    Action.Keeps P (Arena.solve i ε) := by
  refine (Arena.triple_solve h trivial ε).weaken (fun _ ha => ha) (fun _ _ ha => ha) ?_
  rintro _ _ ⟨_, ha⟩
  exact ha

end Conveyor
