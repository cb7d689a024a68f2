-- SUMMARY: Two actions that run in step: they end the same way and leave states that a relation holds together.
import Conveyor.Proofs.WeakestPre

/-!
# Actions in step

To show that two runs come to the same, they are taken step by step, side by side. A relation between
their states is kept by every pair of steps; both answer the same, or the same fault stops both, at
the same step. The relation is on states with their logs, so it may say that the logs are one log, or
leave open what they hold.
-/

namespace Conveyor.Action

variable {σ τ α β : Type}

/-- From `s` and `t` the two actions end with one answer or with one fault, and leave what `R`
relates. -/
def InStep (R : Logged σ → Logged τ → Prop) (act : Action σ α) (act' : Action τ α) (s : Logged σ)
    (t : Logged τ) : Prop :=
  act.outcome s = act'.outcome t ∧ R (act.after s) (act'.after t)

/-- From whatever `R` relates the two actions run in step. -/
abbrev Coupled (R : Logged σ → Logged τ → Prop) (act : Action σ α) (act' : Action τ α) : Prop :=
  ∀ s t, R s t → InStep R act act' s t

variable {R : Logged σ → Logged τ → Prop} {s : Logged σ} {t : Logged τ}

/-! ## How actions end -/

theorem bind_apply (act : Action σ β) (k : β → Action σ α) (s : Logged σ) :
    (act >>= k) s = match act s with
      | .ok b t => k b t
      | .error f t => .error f t := by
  change EStateM.bind act k s = _
  unfold EStateM.bind
  cases act s with
  | ok b t => rfl
  | error f t => rfl

theorem outcome_bind (act : Action σ β) (k : β → Action σ α) (s : Logged σ) :
    (act >>= k).outcome s = act.outcome s >>= fun b => (k b).outcome (act.after s) := by
  unfold outcome after
  rw [bind_apply]
  cases act s with
  | ok b t => rfl
  | error f t => rfl

theorem after_bind_of_ok {act : Action σ β} {b : β} (h : act.outcome s = .ok b) (k : β → Action σ α) :
    (act >>= k).after s = (k b).after (act.after s) := by
  unfold outcome at h
  unfold after
  rw [bind_apply]
  revert h
  cases act s with
  | ok c t =>
    rintro ⟨⟩
    rfl
  | error f t => exact fun h => nomatch h

theorem after_bind_of_error {act : Action σ β} {f : Fault} (h : act.outcome s = .error f)
    (k : β → Action σ α) : (act >>= k).after s = act.after s := by
  unfold outcome at h
  unfold after
  rw [bind_apply]
  revert h
  cases act s with
  | ok c t => exact fun h => nomatch h
  | error g t => exact fun _ => rfl

/-- An action is what it answers and what it leaves. -/
theorem eq_of_outcome_of_after {act act' : Action σ α} (hout : act.outcome s = act'.outcome s)
    (hafter : act.after s = act'.after s) : act s = act' s := by
  unfold outcome at hout
  unfold after at hafter
  revert hout hafter
  cases act s with
  | ok a t =>
    cases act' s with
    | ok b u =>
      rintro ⟨⟩ ⟨⟩
      rfl
    | error g u => exact fun hout => nomatch hout
  | error f t =>
    cases act' s with
    | ok b u => exact fun hout => nomatch hout
    | error g u =>
      rintro ⟨⟩ ⟨⟩
      rfl

namespace InStep

/-- What is known of one run is known of the other one. -/
theorem wp {act : Action σ α} {act' : Action τ α} {Q : α → Logged τ → Prop} {E : Fault → Logged τ → Prop}
    (h : InStep R act act' s t) (hact : act'.wp Q E t) :
    act.wp (fun a u => ∃ v, R u v ∧ Q a v) (fun f u => ∃ v, R u v ∧ E f v) s := by
  unfold InStep outcome after at h
  unfold Action.wp at *
  revert h hact
  cases act s with
  | ok a u =>
    cases act' t with
    | ok b v =>
      rintro ⟨⟨⟩, hR⟩ hQ
      exact ⟨v, hR, hQ⟩
    | error g v => exact fun h => nomatch h.1
  | error f u =>
    cases act' t with
    | ok b v => exact fun h => nomatch h.1
    | error g v =>
      rintro ⟨⟨⟩, hR⟩ hE
      exact ⟨v, hR, hE⟩

/-! ## Structure -/

theorem pure (a : α) (h : R s t) : InStep R (pure a) (pure a) s t := ⟨rfl, h⟩

theorem bind {act : Action σ β} {act' : Action τ β} {k : β → Action σ α} {k' : β → Action τ α}
    (h : InStep R act act' s t) (hk : ∀ b s' t', R s' t' → InStep R (k b) (k' b) s' t') :
    InStep R (act >>= k) (act' >>= k') s t := by
  obtain ⟨hout, hafter⟩ := h
  cases hact : act.outcome s with
  | ok b =>
    have hact' := hout ▸ hact
    obtain ⟨houtk, hafterk⟩ := hk b _ _ hafter
    constructor
    · rw [outcome_bind, outcome_bind, hact, hact']
      exact houtk
    · rwa [after_bind_of_ok hact, after_bind_of_ok hact']
  | error f =>
    have hact' := hout ▸ hact
    constructor
    · rw [outcome_bind, outcome_bind, hact, hact']
      rfl
    · rwa [after_bind_of_error hact, after_bind_of_error hact']

/-- A last change on one side only. -/
theorem bind_update_left {act : Action σ Unit} {act' : Action τ Unit} {f : σ → σ} (h : InStep R act act' s t)
    (hf : ∀ s t, R s t → R { s with state := f s.state } t) :
    InStep R (act >>= fun _ => Action.update f) act' s t := by
  obtain ⟨hout, hafter⟩ := h
  cases hact : act.outcome s with
  | ok _ =>
    refine ⟨?_, ?_⟩
    · rw [outcome_bind, ← hout, hact]
      rfl
    · rw [after_bind_of_ok hact]
      exact hf _ _ hafter
  | error f =>
    refine ⟨?_, ?_⟩
    · rw [outcome_bind, ← hout, hact]
      rfl
    · rwa [after_bind_of_error hact]

theorem ite {c : Prop} [Decidable c] {act next : Action σ α} {act' next' : Action τ α}
    (ht : c → InStep R act act' s t) (hf : ¬ c → InStep R next next' s t) :
    InStep R (if c then act else next) (if c then act' else next') s t := by
  split
  · exact ht ‹_›
  · exact hf ‹_›

/-! ## First steps -/

theorem lift (x : Except Fault α) (h : R s t) : InStep R (liftM x) (liftM x) s t := by
  cases x with
  | ok a => exact ⟨rfl, h⟩
  | error f => exact ⟨rfl, h⟩

theorem bind_lift {x : Except Fault β} {k : β → Action σ α} {k' : β → Action τ α} (h : R s t)
    (hk : ∀ b, x = .ok b → InStep R (k b) (k' b) s t) :
    InStep R (liftM x >>= k) (liftM x >>= k') s t := by
  cases x with
  | ok b => exact hk b rfl
  | error f => exact ⟨rfl, h⟩

/-- What one of them finds is an image of what the other one finds. -/
theorem bind_lift_map {γ : Type} {x : Except Fault β} {g : β → γ} {k : β → Action σ α} {k' : γ → Action τ α}
    (h : R s t) (hk : ∀ b, x = .ok b → InStep R (k b) (k' (g b)) s t) :
    InStep R (liftM x >>= k) (liftM (x.map g) >>= k') s t := by
  cases x with
  | ok b => exact hk b rfl
  | error f => exact ⟨rfl, h⟩

theorem bind_current {k : σ → Action σ α} {k' : τ → Action τ α} (h : InStep R (k s.state) (k' t.state) s t) :
    InStep R (current >>= k) (current >>= k') s t := h

theorem bind_assign {a : σ} {b : τ} {k : Unit → Action σ α} {k' : Unit → Action τ α}
    (h : InStep R (k ()) (k' ()) { s with state := a } { t with state := b }) :
    InStep R (assign a >>= k) (assign b >>= k') s t := h

theorem bind_update {f : σ → σ} {g : τ → τ} {k : Unit → Action σ α} {k' : Unit → Action τ α}
    (h : InStep R (k ()) (k' ()) { s with state := f s.state } { t with state := g t.state }) :
    InStep R (update f >>= k) (update g >>= k') s t := h

theorem update {f : σ → σ} {g : τ → τ} (h : R { s with state := f s.state } { t with state := g t.state }) :
    InStep R (update f) (update g) s t := ⟨rfl, h⟩

/-- One event is reported to two logs that leave out the same. -/
theorem report (event : Event) (hleast : s.least = t.least) (h : R s t)
    (hlogs : ∀ log log', R { s with log } { t with log := log' }) : InStep R (report event) (report event) s t := by
  unfold InStep outcome after Action.report
  cases Decidable.em (event.level.rank < t.least.rank) with
  | inl hlow =>
    simp only [hleast, if_pos hlow, true_and]
    exact h
  | inr hlow =>
    simp only [hleast, if_neg hlow]
    cases event.isWritable with
    | true => exact ⟨rfl, hleast ▸ hlogs _ _⟩
    | false => exact ⟨rfl, h⟩

/-- Parts of two states are worked on in step. -/
theorem focus {ρ ρ' : Type} {S : Logged ρ → Logged ρ' → Prop} {get : σ → ρ} {set : ρ → σ → σ} {get' : τ → ρ'}
    {set' : ρ' → τ → τ} {act : Action ρ α} {act' : Action ρ' α}
    (h : InStep S act act' { s with state := get s.state } { t with state := get' t.state })
    (hset : ∀ u v, S u v → R { u with state := set u.state s.state } { v with state := set' v.state t.state }) :
    InStep R (focus get set act) (focus get' set' act') s t := by
  unfold InStep outcome after Action.focus at *
  revert h
  cases act { s with state := get s.state } with
  | ok a u =>
    cases act' { t with state := get' t.state } with
    | ok b v => exact fun h => ⟨h.1, hset u v h.2⟩
    | error g v => exact fun h => nomatch h.1
  | error f u =>
    cases act' { t with state := get' t.state } with
    | ok b v => exact fun h => nomatch h.1
    | error g v => exact fun h => ⟨h.1, hset u v h.2⟩

/-! ## Loops -/

theorem forM {f : α → Action σ PUnit} {f' : α → Action τ PUnit} {xs : List α}
    (h : ∀ x ∈ xs, Coupled R (f x) (f' x)) (hst : R s t) : InStep R (xs.forM f) (xs.forM f') s t := by
  induction xs generalizing s t with
  | nil => exact pure _ hst
  | cons x xs ih =>
    refine bind (h x List.mem_cons_self s t hst) fun _ s' t' hst' => ?_
    exact ih (fun y hy => h y (List.mem_cons_of_mem _ hy)) hst'

theorem foldlM {f : β → α → Action σ β} {f' : β → α → Action τ β} {xs : List α}
    (h : ∀ b, ∀ x ∈ xs, Coupled R (f b x) (f' b x)) (b : β) (hst : R s t) :
    InStep R (xs.foldlM f b) (xs.foldlM f' b) s t := by
  induction xs generalizing b s t with
  | nil => exact pure _ hst
  | cons x xs ih =>
    rw [List.foldlM_cons, List.foldlM_cons]
    refine bind (h b x List.mem_cons_self s t hst) fun c s' t' hst' => ?_
    exact ih (fun b y hy => h b y (List.mem_cons_of_mem _ hy)) c hst'

theorem mapM {f : α → Action σ β} {f' : α → Action τ β} {xs : List α} (h : ∀ x ∈ xs, Coupled R (f x) (f' x))
    (hst : R s t) : InStep R (xs.mapM f) (xs.mapM f') s t := by
  induction xs generalizing s t with
  | nil => exact pure _ hst
  | cons x xs ih =>
    rw [List.mapM_cons, List.mapM_cons]
    refine bind (h x List.mem_cons_self s t hst) fun y s' t' hst' => ?_
    exact bind (ih (fun y hy => h y (List.mem_cons_of_mem _ hy)) hst') fun ys _ _ hst => pure _ hst

end InStep

end Conveyor.Action
