-- SUMMARY: Advancing a stream reads and changes that stream and its suppliers only.
import Conveyor.Proofs.InStep
import Conveyor.Proofs.Order

/-!
# Footprints

To advance a stream opens buffers of it, moves stock to it from its suppliers, runs its cycles and sets its
countdown. None of this looks at other streams. So from two arenas with the same streams in the footprint
a call comes to the same, and all that is outside the footprint is left as it was in either of them.
-/

namespace Conveyor.Arena

variable {a b : Arena} {i j u : Nat} {s t st : Logged Arena} {l : Level} {m ticks : Int} {p : Product}

/-- The stream and its suppliers. -/
def footprint (a : Arena) (i : Nat) : List Nat := i :: a.supplyGraph.next i

theorem mem_footprint_iff : j ∈ a.footprint i ↔ j = i ∨ a.Supplies j i := by
  rw [footprint, List.mem_cons, mem_next_iff]

theorem self_mem_footprint (a : Arena) (i : Nat) : i ∈ a.footprint i := List.mem_cons_self

/-- Two calls for stream `i`, begun in `a` and in `b`, have come to `s` and `t`: alike in the footprint,
and unchanged outside of it. -/
structure Beside (a b : Arena) (i : Nat) (l : Level) (s t : Logged Arena) : Prop where
  least : s.least = l ∧ t.least = l
  raised : a.Raised s.state
  inside : ∀ j ∈ a.footprint i, s.state.stream? j = t.state.stream? j
  outside : ∀ j ∉ a.footprint i, s.state.stream? j = a.stream? j ∧ t.state.stream? j = b.stream? j

namespace Beside

theorem start (hleast : s.least = t.least)
    (h : ∀ j ∈ s.state.footprint i, s.state.stream? j = t.state.stream? j) :
    Beside s.state t.state i s.least s t :=
  ⟨⟨rfl, hleast.symm⟩, Raised.refl _, h, fun _ _ => ⟨rfl, rfl⟩⟩

theorem stream_eq (h : Beside a b i l s t) (hj : j ∈ a.footprint i) : s.state.stream j = t.state.stream j := by
  rw [Arena.stream, Arena.stream, h.inside j hj]

theorem buffer?_eq (h : Beside a b i l s t) (hj : j ∈ a.footprint i) (p : Product) :
    s.state.buffer? j p = t.state.buffer? j p := by
  rw [Arena.buffer?, Arena.buffer?, h.inside j hj]

/-- The slots of the stream are bound to what is in the footprint. -/
theorem supplier_mem (h : Beside a b i l s t) {r : Stream} (hr : s.state.stream? i = some r) {slot : Slot}
    (hslot : slot ∈ r.inputs) : slot.supplier ∈ a.footprint i :=
  mem_footprint_iff.2 (.inr (h.raised.supplies_iff.1 ⟨r, hr, slot, hslot, rfl⟩))

/-! ## Changes in the footprint -/

theorem modify (h : Beside a b i l s t) (hj : j ∈ a.footprint i) {f : Stream → Stream}
    (hf : ∀ r, s.state.stream? j = some r → r.Raised (f r)) :
    Beside a b i l { s with state := s.state.modify j f } { t with state := t.state.modify j f } where
  least := h.least
  raised := h.raised.trans (Raised.modify hf)
  inside k hk := by
    simp only [stream?_modify, h.inside k hk]
  outside k hk := by
    have hne : j ≠ k := fun hjk => hk (hjk ▸ hj)
    simp only [stream?_modify, if_neg hne]
    exact h.outside k hk

theorem openInput (h : Beside a b i l s t) (p : Product) (m : Int) :
    Beside a b i l { s with state := s.state.openInput i p m } { t with state := t.state.openInput i p m } :=
  h.modify (self_mem_footprint a i) fun r _ => (Stream.openInput_same r p m).raised

theorem transfer (h : Beside a b i l s t) (hu : u ∈ a.footprint i) (p : Product) :
    Beside a b i l { s with state := s.state.transfer i u p } { t with state := t.state.transfer i u p } := by
  have hi := self_mem_footprint a i
  unfold Arena.transfer
  rw [← h.buffer?_eq hi p, ← h.buffer?_eq hu p]
  split
  · refine modify (s := { s with state := _ }) (t := { t with state := _ }) (h.modify hu fun r _ => ?_) hi
      fun r _ => ?_
    · exact (Stream.gain_same r p _).raised
    · exact (Stream.gain_same r p _).raised
  · exact h

theorem withNext (h : Beside a b i l s t) (n : Int) :
    Beside a b i l { s with state := s.state.withNext i n } { t with state := t.state.withNext i n } :=
  h.modify (self_mem_footprint a i) fun r _ => (Stream.setNext_same r n).raised

/-! ## Calls -/

theorem inStep_pullSlot {slot : Slot} (hu : slot.supplier ∈ a.footprint i) :
    Action.Coupled (Beside a b i l) (pullSlot m i slot) (pullSlot m i slot) := by
  intro s t h
  refine Action.InStep.bind_update (Action.InStep.bind_current ?_)
  have hopened := h.openInput slot.product m
  rw [hopened.stream_eq hu]
  exact Action.InStep.bind_lift hopened fun _ _ => Action.InStep.update (hopened.transfer hu slot.product)

theorem inStep_pull : Action.Coupled (Beside a b i l) (pull m i) (pull m i) := by
  intro s t h
  refine Action.InStep.bind_current ?_
  rw [← h.stream_eq (self_mem_footprint a i)]
  refine Action.InStep.bind_lift h fun r hr => Action.InStep.forM (fun slot hslot => ?_) h
  exact inStep_pullSlot (h.supplier_mem (stream_eq_ok hr) hslot)

theorem inStep_attempt : Action.Coupled (Beside a b i l) (attempt m i) (attempt m i) := by
  intro s t h
  refine Action.InStep.bind (inStep_pull s t h) fun _ s t h => Action.InStep.bind_current ?_
  rw [← h.stream_eq (self_mem_footprint a i)]
  refine Action.InStep.bind_lift h fun r hr => ?_
  cases hproduce : r.produce? with
  | none => exact Action.InStep.pure false h
  | some r' =>
    refine Action.InStep.bind_assign (Action.InStep.pure true ?_)
    refine h.modify (self_mem_footprint a i) fun r₀ hr₀ => ?_
    obtain rfl := Option.some.inj ((stream_eq_ok hr).symm.trans hr₀)
    exact (Stream.produce?_same hproduce).raised

theorem inStep_runCycles (n completed : Nat) :
    Action.Coupled (Beside a b i l) (runCycles m i n completed) (runCycles m i n completed) := by
  induction n generalizing completed with
  | zero => exact fun s t h => Action.InStep.pure completed h
  | succ n ih =>
    intro s t h
    refine Action.InStep.bind (inStep_attempt s t h) fun done s t h => ?_
    exact Action.InStep.ite (fun _ => ih (completed + 1) s t h) fun _ => Action.InStep.pure completed h

theorem inStep_reportProduced (produced : Table Product Int) :
    Action.Coupled (Beside a b i l) (reportProduced i produced) (reportProduced i produced) := by
  intro s t h
  refine Action.InStep.bind_current (Action.InStep.forM (fun entry _ s' t' h' => ?_) h)
  dsimp only
  rw [Arena.buffer, h.buffer?_eq (self_mem_footprint a i), ← Arena.buffer]
  refine Action.InStep.ite (fun _ => Action.InStep.bind_lift h' fun held _ => ?_) fun _ => Action.InStep.pure _ h'
  have hleast : s'.least = t'.least := h'.least.1.trans h'.least.2.symm
  exact Action.InStep.report _ hleast h' fun _ _ => ⟨h'.least, h'.raised, h'.inside, h'.outside⟩

theorem inStep_advance (ticks : Int) :
    Action.Coupled (Beside a b i l) (advance i ticks m) (advance i ticks m) := by
  intro s t h
  refine Action.InStep.bind_current ?_
  rw [← h.stream_eq (self_mem_footprint a i)]
  refine Action.InStep.bind_lift h fun r _ => Action.InStep.bind_lift h fun period _ =>
    Action.InStep.bind_lift h fun (crossed, next) _ => Action.InStep.bind_assign ?_
  refine Action.InStep.bind (inStep_runCycles _ 0 _ _ (h.withNext next)) fun completed s t h => ?_
  exact Action.InStep.bind (inStep_reportProduced _ s t h) fun _ s t h => Action.InStep.pure _ h

end Beside

/-! ## What a call depends on and what it changes -/

/-- From arenas with the same streams in the footprint a call ends the same way, and leaves the same
streams there. -/
theorem advance_congr (i : Nat) (ticks m : Int) (hleast : s.least = t.least)
    (h : ∀ j ∈ s.state.footprint i, s.state.stream? j = t.state.stream? j) :
    (advance i ticks m).outcome s = (advance i ticks m).outcome t ∧
      ∀ j ∈ s.state.footprint i,
        ((advance i ticks m).after s).state.stream? j = ((advance i ticks m).after t).state.stream? j :=
  (Beside.inStep_advance ticks s t (Beside.start hleast h)).imp id Beside.inside

/-- A call leaves the streams outside its footprint as they were. -/
theorem stream?_advance_of_not_mem (h : j ∉ st.state.footprint i) :
    ((advance i ticks m).after st).state.stream? j = st.state.stream? j :=
  ((Beside.inStep_advance ticks st st (Beside.start rfl fun _ _ => rfl)).2.outside j h).1

theorem least_advance (i : Nat) (ticks m : Int) (st : Logged Arena) :
    ((advance i ticks m).after st).least = st.least :=
  (Beside.inStep_advance ticks st st (Beside.start rfl fun _ _ => rfl)).2.least.1

theorem raised_advance (i : Nat) (ticks m : Int) (st : Logged Arena) :
    st.state.Raised ((advance i ticks m).after st).state :=
  (Beside.inStep_advance ticks st st (Beside.start rfl fun _ _ => rfl)).2.raised

theorem footprint_advance (i : Nat) (ticks m : Int) (st : Logged Arena) (k : Nat) :
    k ∈ ((advance i ticks m).after st).state.footprint j ↔ k ∈ st.state.footprint j := by
  rw [mem_footprint_iff, mem_footprint_iff, (raised_advance i ticks m st).supplies_iff]

/-- What is in the log makes no difference to a call. -/
theorem advance_of_state_eq (hstate : s.state = t.state) (hleast : s.least = t.least) (i : Nat) (ticks m : Int) :
    (advance i ticks m).outcome s = (advance i ticks m).outcome t ∧
      ((advance i ticks m).after s).state = ((advance i ticks m).after t).state := by
  obtain ⟨hout, hinside⟩ := advance_congr i ticks m hleast fun j _ => by rw [hstate]
  refine ⟨hout, ext_stream? fun j => ?_⟩
  cases Decidable.em (j ∈ s.state.footprint i) with
  | inl hj => exact hinside j hj
  | inr hj => rw [stream?_advance_of_not_mem hj, stream?_advance_of_not_mem (hstate ▸ hj), hstate]

/-- A call does not see that another one came first, if it looks at nothing that the other has changed. -/
theorem advance_after (hapart : ∀ k ∈ st.state.footprint i, k ∉ st.state.footprint j) (ticks m : Int) :
    (advance j ticks m).outcome ((advance i ticks m).after st) = (advance j ticks m).outcome st ∧
      ∀ k ∈ st.state.footprint j, ((advance j ticks m).after ((advance i ticks m).after st)).state.stream? k =
        ((advance j ticks m).after st).state.stream? k := by
  have hsame := footprint_advance (j := j) i ticks m st
  have hcongr := advance_congr j ticks m (least_advance i ticks m st) fun k hk =>
    stream?_advance_of_not_mem (i := i) fun hi => hapart k hi ((hsame k).1 hk)
  exact ⟨hcongr.1, fun k hk => hcongr.2 k ((hsame k).2 hk)⟩

/-- Calls with footprints apart come to the same in either order. -/
theorem advance_comm (hapart : ∀ k ∈ st.state.footprint i, k ∉ st.state.footprint j) (ticks m : Int) :
    ((advance j ticks m).after ((advance i ticks m).after st)).state =
      ((advance i ticks m).after ((advance j ticks m).after st)).state := by
  have hapart' : ∀ k ∈ st.state.footprint j, k ∉ st.state.footprint i := fun k hj hi => hapart k hi hj
  have houtside {i j k : Nat} (hk : k ∉ st.state.footprint j) :
      ((advance j ticks m).after ((advance i ticks m).after st)).state.stream? k =
        ((advance i ticks m).after st).state.stream? k :=
    stream?_advance_of_not_mem fun h => hk ((footprint_advance i ticks m st k).1 h)
  refine ext_stream? fun k => ?_
  cases Decidable.em (k ∈ st.state.footprint j) with
  | inl hj => rw [(advance_after hapart ticks m).2 k hj, houtside (hapart' k hj)]
  | inr hj =>
    rw [houtside hj]
    cases Decidable.em (k ∈ st.state.footprint i) with
    | inl hi => rw [(advance_after hapart' ticks m).2 k hi]
    | inr hi => rw [houtside hi, stream?_advance_of_not_mem hi, stream?_advance_of_not_mem hj]

end Conveyor.Arena
