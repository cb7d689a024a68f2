-- SUMMARY: Passing time with books of what is drawn from whom: the same run, and what each step enters.
import Conveyor.Proofs.InStep
import Conveyor.Proofs.Turn

/-!
# Keeping books

A call tells what each stream produced, but not what was drawn from it meanwhile. To speak of that, the
run is repeated with a ledger beside the arena: after every pull along a slot it is booked what the supplier
has less. Without the ledger this is the run itself, step by step.
-/

namespace Conveyor

/-- Units of a product that one stream drew from another. -/
structure Move where
  taker : Nat
  supplier : Nat
  product : Product
  units : Int

/-- An arena, and the moves that led to it, the last one first. -/
structure Ledger where
  arena : Arena
  moves : List Move := []

namespace Ledger

/-- Units of a product that were drawn from a stream. -/
def drawn (b : Ledger) (u : Nat) (p : Product) : Int :=
  ((b.moves.filter fun move => move.supplier = u ∧ move.product = p).map Move.units).sum

/-- Units of a product that a stream drew from others. -/
def taken (b : Ledger) (u : Nat) (p : Product) : Int :=
  ((b.moves.filter fun move => move.taker = u ∧ move.product = p).map Move.units).sum

/-! ## The run with books -/

/-- Do to the arena what leaves the books as they are. -/
def inArena {α : Type} (act : Action Arena α) : Action Ledger α :=
  Action.focus Ledger.arena (fun arena b => { b with arena }) act

/-- Pull along one slot, and book what the supplier has less. -/
def pullSlot (bufferMultiplier : Int) (i : Nat) (slot : Slot) : Action Ledger Unit := do
  let before ← Action.current
  inArena (Arena.pullSlot bufferMultiplier i slot)
  Action.update fun after =>
    let units := before.arena.held slot.supplier slot.product - after.arena.held slot.supplier slot.product
    { after with moves := ⟨i, slot.supplier, slot.product, units⟩ :: after.moves }

def pull (bufferMultiplier : Int) (i : Nat) : Action Ledger Unit := do
  let b ← Action.current
  let s ← b.arena.stream i
  s.inputs.forM (pullSlot bufferMultiplier i)

def attempt (bufferMultiplier : Int) (i : Nat) : Action Ledger Bool := do
  pull bufferMultiplier i
  let b ← Action.current
  let s ← b.arena.stream i
  match s.produce? with
  | some produced =>
    inArena (Action.assign (b.arena.modify i fun _ => produced))
    return true
  | none => return false

def runCycles (bufferMultiplier : Int) (i : Nat) : Nat → Nat → Action Ledger Nat
  | 0, completed => return completed
  | n + 1, completed => do
    if (← attempt bufferMultiplier i) then runCycles bufferMultiplier i n (completed + 1)
    else return completed

def advance (i : Nat) (ticks bufferMultiplier : Int) : Action Ledger StreamTick := do
  let b ← Action.current
  let s ← b.arena.stream i
  let period ← s.recipe.period
  let (boundaries, next) ← Clock.advance (s.next.getD period) period ticks
  inArena (Action.assign (b.arena.modify i ({ · with next := some next })))
  let attempts := if s.recipe.isInert then 0 else boundaries.toNat
  let completed ← runCycles bufferMultiplier i attempts 0
  let produced := s.recipe.outputTotals.mapValues fun amount => completed * (amount * s.mult)
  inArena (Arena.reportProduced i produced)
  return ⟨i, produced⟩

def tick (ticks : Int) (order : TickOrder) (bufferMultiplier : Int) : Action Ledger (List StreamTick) := do
  let b ← Action.current
  let indices ← b.arena.visitOrder order
  indices.mapM fun i => advance i ticks bufferMultiplier

/-! ## Without the books -/

/-- Without its moves, the first is the second. -/
def Erases (s : Logged Ledger) (t : Logged Arena) : Prop := { s with state := s.state.arena } = t

variable {i : Nat} {ticks m : Int}

theorem coupled_inArena {α : Type} (act : Action Arena α) : Action.Coupled Erases (inArena act) act := by
  rintro s _ rfl
  unfold Action.InStep Action.outcome Action.after inArena Action.focus
  cases act { s with state := s.state.arena } with
  | ok a t => exact ⟨rfl, rfl⟩
  | error f t => exact ⟨rfl, rfl⟩

theorem Erases.arena_eq {s : Logged Ledger} {t : Logged Arena} (h : Erases s t) : s.state.arena = t.state := by
  rw [← h]

theorem coupled_pullSlot (slot : Slot) : Action.Coupled Erases (pullSlot m i slot) (Arena.pullSlot m i slot) := by
  intro s t h
  change Action.InStep Erases (inArena (Arena.pullSlot m i slot) >>= fun _ => Action.update _) _ s t
  exact (coupled_inArena _ s t h).bind_update_left fun _ _ h => h

theorem coupled_pull : Action.Coupled Erases (pull m i) (Arena.pull m i) := by
  intro s t h
  refine Action.InStep.bind_current ?_
  rw [h.arena_eq]
  exact Action.InStep.bind_lift h fun r _ => Action.InStep.forM (fun slot _ => coupled_pullSlot slot) h

theorem coupled_attempt : Action.Coupled Erases (attempt m i) (Arena.attempt m i) := by
  intro s t h
  refine (coupled_pull s t h).bind fun _ s t h => Action.InStep.bind_current ?_
  rw [h.arena_eq]
  refine Action.InStep.bind_lift h fun r _ => ?_
  cases r.produce? with
  | none => exact Action.InStep.pure false h
  | some r' => exact (coupled_inArena _ s t h).bind fun _ _ _ h => Action.InStep.pure true h

theorem coupled_runCycles (n completed : Nat) :
    Action.Coupled Erases (runCycles m i n completed) (Arena.runCycles m i n completed) := by
  induction n generalizing completed with
  | zero => exact fun s t h => Action.InStep.pure completed h
  | succ n ih =>
    intro s t h
    refine (coupled_attempt s t h).bind fun done s t h => ?_
    exact Action.InStep.ite (fun _ => ih (completed + 1) s t h) fun _ => Action.InStep.pure completed h

theorem coupled_advance (i : Nat) : Action.Coupled Erases (advance i ticks m) (Arena.advance i ticks m) := by
  intro s t h
  refine Action.InStep.bind_current ?_
  rw [h.arena_eq]
  refine Action.InStep.bind_lift h fun r _ => Action.InStep.bind_lift h fun period _ =>
    Action.InStep.bind_lift h fun (crossed, next) _ => ?_
  refine (coupled_inArena _ s t h).bind fun _ s t h => (coupled_runCycles _ 0 s t h).bind fun completed s t h => ?_
  exact (coupled_inArena _ s t h).bind fun _ s t h => Action.InStep.pure _ h

/-- A call with books is the call, and keeps books besides. -/
theorem coupled_tick (order : TickOrder) :
    Action.Coupled Erases (tick ticks order m) (Arena.tick ticks order m) := by
  intro s t h
  refine Action.InStep.bind_current ?_
  rw [h.arena_eq]
  exact Action.InStep.bind_lift h fun is _ => Action.InStep.mapM (fun i _ => coupled_advance i) h

/-- What a call answers, it also answers with books, which are on the arena that it leaves. -/
theorem tick_of_ok {order : TickOrder} {st t : Logged Arena} {reports : List StreamTick}
    (h : Arena.tick ticks order m st = .ok reports t) :
    ∃ books : Ledger, books.arena = t.state ∧
      tick ticks order m { st with state := ⟨st.state, []⟩ } = .ok reports { t with state := books } := by
  obtain ⟨hok, rfl⟩ := Action.outcome_eq_ok h
  obtain ⟨hout, herases⟩ := coupled_tick order { st with state := ⟨st.state, []⟩ } st rfl 
  rw [← herases]
  exact ⟨_, rfl, Action.eq_ok_of_outcome (hout.trans hok)⟩

end Ledger

end Conveyor
