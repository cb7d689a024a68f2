-- SUMMARY: Actions that report nothing: how they end depends on the state alone, and the log stays as it was.
import Conveyor.Proofs.WeakestPre

/-!
# Silent actions

A triple says what holds after an action. To compare two runs, what they end with has to be known
outright. An action that reports nothing ends the same way whatever is in the log.
-/

namespace Conveyor.Action

variable {σ α β : Type}

/-- From state `a` the action ends as `x` says and leaves `b`, and it reports nothing. -/
def Ends (act : Action σ α) (a : σ) (x : Except Fault α) (b : σ) : Prop :=
  ∀ s, s.state = a → act s = ofExcept x { s with state := b }

namespace Ends

variable {a b c : σ} {x : Except Fault α} {y : β} {f : Fault} {act : Action σ β} {k : β → Action σ α}

theorem pure (v : α) : Ends (pure v : Action σ α) a (.ok v) a := by
  rintro s rfl
  rfl

theorem lift (x : Except Fault α) : Ends (liftM x : Action σ α) a x a := by
  rintro s rfl
  rfl

theorem update (f : σ → σ) : Ends (update f) a (.ok ()) (f a) := by
  rintro s rfl
  rfl

theorem assign (b : σ) : Ends (assign b) a (.ok ()) b := by
  rintro s rfl
  rfl

theorem bind (h : Ends act a (.ok y) b) (hk : Ends (k y) b x c) : Ends (act >>= k) a x c := by
  intro s hs
  change EStateM.bind act k s = _
  unfold EStateM.bind
  rw [h s hs]
  exact hk _ rfl

theorem bind_error (h : Ends act a (.error f) b) : Ends (act >>= k) a (.error f) b :=
  fun s hs => bind_of_error (h s hs)

theorem bind_current {k : σ → Action σ α} (hk : Ends (k a) a x b) : Ends (current >>= k) a x b :=
  bind (fun s hs => by subst hs; rfl) hk

theorem bind_lift (hk : Ends (k y) a x b) : Ends (liftM (.ok y : Except Fault β) >>= k) a x b :=
  bind (lift _) hk

theorem wp {act : Action σ α} {s : Logged σ} (h : Ends act s.state x b) :
    act.wp (fun v t => x = .ok v ∧ t = { s with state := b }) (fun f t => x = .error f ∧ t = { s with state := b })
      s := by
  unfold Action.wp
  rw [h s rfl]
  cases x with
  | ok v => exact ⟨rfl, rfl⟩
  | error f => exact ⟨rfl, rfl⟩

end Ends

end Conveyor.Action
