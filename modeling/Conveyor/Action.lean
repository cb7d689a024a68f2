-- SUMMARY: Computations that change a state, report events, and may stop at a fault.
import Conveyor.Event
import Conveyor.Fault

/-!
# Actions

An action runs on a state and a log. When a fault stops it, what it changed and reported before
stands; nothing is undone unless the action says so. Events below the least level of the log are
passed over. All others are written as they are reported, by a handler that lets out what goes wrong
in writing: an event that cannot be written is a fault of the action that reports it.
-/

namespace Conveyor

/-- A state, what was reported so far, and the least level of what is. -/
structure Logged (σ : Type) where
  state : σ
  log : Array Event := #[]
  least : Level := .debug

/-- A result that needs no state. -/
def ofExcept {σ α : Type} : Except Fault α → EStateM Fault σ α
  | .ok a => fun s => .ok a s
  | .error f => fun s => .error f s

instance {σ : Type} : MonadLift (Except Fault) (EStateM Fault σ) := ⟨ofExcept⟩

/-- A computation on a state of type `σ`. -/
abbrev Action (σ : Type) := EStateM Fault (Logged σ)

namespace Action

variable {σ τ α : Type}

/-- The state. -/
def current : Action σ σ := fun s => .ok s.state s

/-- Replace the state. -/
def assign (state : σ) : Action σ Unit := fun s => .ok () { s with state }

/-- Change the state. -/
def update (f : σ → σ) : Action σ Unit := fun s => .ok () { s with state := f s.state }

/-- Add an event to the log. The handler swallows no error: what cannot be written stops the action. -/
def report (event : Event) : Action σ Unit := fun s =>
  if event.level.rank < s.least.rank then .ok () s
  else if event.isWritable then .ok () { s with log := s.log.push event }
  else .error .tooManyDigits s

/-- Run an action on a part of the state. -/
def focus (get : σ → τ) (set : τ → σ → σ) (act : Action τ α) : Action σ α := fun s =>
  match act { s with state := get s.state } with
  | .ok a t => .ok a { t with state := set t.state s.state }
  | .error f t => .error f { t with state := set t.state s.state }

/-- The answer of an action that starts with an empty log. -/
def answer (act : Action σ α) (state : σ) : Except Fault α :=
  match act { state } with
  | .ok a _ => .ok a
  | .error f _ => .error f

/-- What an action that starts with an empty log leaves, whether it answers or not. -/
def final (act : Action σ α) (state : σ) : Logged σ :=
  match act { state } with
  | .ok _ s => s
  | .error _ s => s

end Action

end Conveyor
