-- SUMMARY: What passing time keeps: whatever its four changes of an arena keep.
import Conveyor.Arena.Simulation
import Conveyor.Proofs.Action
import Conveyor.Proofs.Arena

/-!
# Passing time, change by change

Time changes an arena in four ways only: a buffer is opened, stock is moved, a cycle is run, a
countdown is set. A property that these four keep is kept by a whole call, whether it answers or is
stopped half-way.
-/

namespace Conveyor.Arena

variable {P : Arena → Prop} {m : Int}

/-! ## Pulling -/

/-- A stream draws what its slots say, also when it draws after other changes. -/
theorem keeps_pull_of_slots {i : Nat} (hopen : ∀ a, P a → ∀ p, P (a.openInput i p m))
    (htransfer : ∀ a, P a → ∀ s, a.stream? i = some s → ∀ slot ∈ s.inputs, ∀ b, P b →
      P (b.transfer i slot.supplier slot.product)) : Action.Keeps P (pull m i) := by
  unfold pull
  apply Action.Keeps.bind_current
  intro a ha
  apply Action.Keeps.bind_lift
  intro s hs
  apply Action.Keeps.forM
  intro slot hslot
  unfold pullSlot
  apply Action.Keeps.bind (Action.Keeps.update fun a ha => hopen a ha slot.product)
  intro _
  apply Action.Keeps.bind_current
  intro b _
  apply Action.Keeps.bind_lift
  intro _ _
  exact Action.Keeps.update (htransfer a ha s (stream_eq_ok hs) slot hslot)

theorem keeps_pull {i : Nat} (hopen : ∀ a, P a → ∀ p, P (a.openInput i p m))
    (htransfer : ∀ a, P a → ∀ u p, P (a.transfer i u p)) : Action.Keeps P (pull m i) :=
  keeps_pull_of_slots hopen fun _ _ _ _ slot _ b hb => htransfer b hb slot.supplier slot.product

theorem keeps_reportProduced (i : Nat) (produced : Table Product Int) :
    Action.Keeps P (reportProduced i produced) := by
  unfold reportProduced
  apply Action.Keeps.bind_current
  intro a _
  apply Action.Keeps.forM
  intro entry _
  refine Action.Triple.ite (fun _ => ?_) fun _ => Action.Keeps.pure
  exact Action.Keeps.bind_lift fun _ _ => Action.Keeps.report

/-! ## All changes -/

/-- The property is kept by every change that passing time makes. -/
structure ClosedUnderTime (m : Int) (P : Arena → Prop) : Prop where
  openInput : ∀ a, P a → ∀ i p, P (a.openInput i p m)
  transfer : ∀ a, P a → ∀ i s, a.stream? i = some s → ∀ slot ∈ s.inputs, ∀ b, P b →
    P (b.transfer i slot.supplier slot.product)
  produce : ∀ a, P a → ∀ i s s', a.stream? i = some s → s.produce? = some s' →
    P (a.modify i fun _ => s')
  setNext : ∀ a, P a → ∀ i next, P (a.modify i ({ · with next := some next }))

namespace ClosedUnderTime

theorem keeps_attempt (h : ClosedUnderTime m P) (i : Nat) : Action.Keeps P (attempt m i) := by
  unfold attempt
  apply Action.Keeps.bind
  · exact keeps_pull_of_slots (fun a ha => h.openInput a ha i) fun a ha => h.transfer a ha i
  intro _
  apply Action.Keeps.bind_current
  intro a ha
  apply Action.Keeps.bind_lift
  intro s hs
  cases hproduce : s.produce? with
  | none => exact Action.Keeps.pure
  | some s' =>
    apply Action.Keeps.bind
    · exact Action.Keeps.assign (h.produce a ha i s s' (stream_eq_ok hs) hproduce)
    · exact fun _ => Action.Keeps.pure

theorem keeps_runCycles (h : ClosedUnderTime m P) (i n completed : Nat) :
    Action.Keeps P (runCycles m i n completed) := by
  induction n generalizing completed with
  | zero => exact Action.Keeps.pure
  | succ n ih =>
    unfold runCycles
    apply Action.Keeps.bind (h.keeps_attempt i)
    intro done
    cases done with
    | true => exact ih (completed + 1)
    | false => exact Action.Keeps.pure

theorem keeps_advance (h : ClosedUnderTime m P) (i : Nat) (ticks : Int) :
    Action.Keeps P (advance i ticks m) := by
  unfold advance
  apply Action.Keeps.bind_current
  intro a ha
  apply Action.Keeps.bind_lift
  intro s _
  apply Action.Keeps.bind_lift
  intro period _
  apply Action.Keeps.bind_lift
  intro ⟨boundaries, next⟩ _
  apply Action.Keeps.bind (Action.Keeps.assign (h.setNext a ha i next))
  intro _
  apply Action.Keeps.bind (h.keeps_runCycles i _ 0)
  intro completed
  exact Action.Keeps.bind (keeps_reportProduced i _) fun _ => Action.Keeps.pure

theorem keeps_tick (h : ClosedUnderTime m P) (ticks : Int) (order : TickOrder) :
    Action.Keeps P (tick ticks order m) := by
  unfold tick
  apply Action.Keeps.bind_current
  intro a _
  apply Action.Keeps.bind_lift
  intro indices _
  exact Action.Keeps.mapM fun i _ => h.keeps_advance i ticks

end ClosedUnderTime

/-- A move between two buffers keeps of every stream what a change of one buffer keeps. -/
theorem forall_stream_transfer {Q : Stream → Prop} (hgain : ∀ s, Q s → ∀ p n, Q (s.gain p n)) {a : Arena}
    (ha : ∀ j s, a.stream? j = some s → Q s) (i u : Nat) (p : Product) :
    ∀ j s, (a.transfer i u p).stream? j = some s → Q s := by
  have hmoved {c : Arena} (hc : ∀ j s, c.stream? j = some s → Q s) (u : Nat) (p : Product) (n : Int) :
      ∀ j s, (c.modify u (·.gain p n)).stream? j = some s → Q s :=
    forall_stream_modify hc fun s hs => hgain s (hc u s hs) p n
  unfold Arena.transfer
  split
  · exact hmoved (hmoved ha _ _ _) _ _ _
  · exact ha

/-- What the changes of a single stream keep, time keeps of every stream. -/
theorem forall_stream_closedUnderTime {Q : Stream → Prop} (hopen : ∀ s, Q s → ∀ p, Q (s.openInput p m))
    (hgain : ∀ s, Q s → ∀ p n, Q (s.gain p n)) (hproduce : ∀ s s', Q s → s.produce? = some s' → Q s')
    (hnext : ∀ s, Q s → ∀ next, Q { s with next := some next }) :
    ClosedUnderTime m fun a => ∀ i s, a.stream? i = some s → Q s where
  openInput _ ha i p := forall_stream_modify ha fun s hs => hopen s (ha i s hs) p
  transfer _ _ i _ _ slot _ _ hb := forall_stream_transfer hgain hb i slot.supplier slot.product
  produce _ ha i s s' hs h := forall_stream_modify ha fun _ _ => hproduce s s' (ha i s hs) h
  setNext _ ha i next := forall_stream_modify ha fun s hs => hnext s (ha i s hs) next

end Conveyor.Arena
