-- SUMMARY: What an action does from one given start: its answer and its fault, with the log and what it began with in view.
import Conveyor.Proofs.Action
import Mathlib.Data.List.Forall2

/-!
# Weakest conditions

A triple forgets where an action started and what it reported. To say that a fault leaves everything
as it was, both are needed: `wp` is the condition on one start, log included, under which an action
ends as it should. The rules take off first steps that change nothing, and hand what they found on.
-/

namespace Conveyor.Action

variable {σ α β : Type}

/-- From `s` the action answers with `Q`, or a fault stops it with `E`. -/
def wp (act : Action σ α) (Q : α → Logged σ → Prop) (E : Fault → Logged σ → Prop) (s : Logged σ) :
    Prop :=
  match act s with
  | .ok a t => Q a t
  | .error f t => E f t

variable {Q Q' : α → Logged σ → Prop} {E E' : Fault → Logged σ → Prop} {s : Logged σ}

/-- A single run can be checked. -/
instance (act : Action σ α) [∀ a t, Decidable (Q a t)] [∀ f t, Decidable (E f t)] : Decidable (act.wp Q E s) :=
  match h : act s with
  | .ok a t => decidable_of_iff (Q a t) (by rw [wp, h])
  | .error f t => decidable_of_iff (E f t) (by rw [wp, h])

theorem eq_ok_of_outcome {act : Action σ α} {a : α} (h : act.outcome s = .ok a) : act s = .ok a (act.after s) := by
  unfold outcome at h
  unfold after
  revert h
  cases act s with
  | ok b t =>
    rintro ⟨⟩
    rfl
  | error f t => exact nofun

theorem outcome_eq_ok {act : Action σ α} {a : α} {t : Logged σ} (h : act s = .ok a t) :
    act.outcome s = .ok a ∧ act.after s = t := by
  unfold outcome after
  rw [h]
  exact ⟨rfl, rfl⟩

theorem final_eq_after (act : Action σ α) (a : σ) : act.final a = act.after { state := a } := rfl

namespace wp

/-! ## Structure -/

theorem weaken {act : Action σ α} (h : act.wp Q E s) (hQ : ∀ a t, Q a t → Q' a t)
    (hE : ∀ f t, E f t → E' f t) : act.wp Q' E' s := by
  unfold wp at h ⊢
  revert h
  cases act s with
  | ok a t => exact hQ a t
  | error f t => exact hE f t

theorem pure {a : α} (h : Q a s) : wp (pure a) Q E s := h

theorem bind {act : Action σ β} {k : β → Action σ α} (h : act.wp (fun b => (k b).wp Q E) E s) :
    (act >>= k).wp Q E s := by
  change match EStateM.bind act k s with
    | .ok a t => Q a t
    | .error f t => E f t
  unfold EStateM.bind
  unfold wp at h
  revert h
  cases act s with
  | ok b t => exact id
  | error f t => exact id

theorem ite {c : Prop} [Decidable c] {act act' : Action σ α} (ht : c → act.wp Q E s)
    (hf : ¬ c → act'.wp Q E s) : wp (if c then act else act') Q E s := by
  split
  · exact ht ‹_›
  · exact hf ‹_›

theorem update {f : σ → σ} {Q : Unit → Logged σ → Prop} (h : Q () { s with state := f s.state }) :
    (update f).wp Q E s := h

/-- What a triple says of all starts with one state holds of each of them. -/
theorem of_triple {act : Action σ α} {Q : α → σ → Prop} {E : Fault → σ → Prop}
    (h : Triple (· = s.state) act Q E) : act.wp (fun a t => Q a t.state) (fun f t => E f t.state) s :=
  h s rfl

/-- What an action keeps holds besides. -/
theorem and_keeps {act : Action σ α} {P : σ → Prop} (h : act.wp Q E s) (hkeeps : Keeps P act) (hs : P s.state) :
    act.wp (fun a t => Q a t ∧ P t.state) (fun f t => E f t ∧ P t.state) s := by
  have hact := hkeeps s hs
  unfold wp at *
  revert h hact
  cases act s with
  | ok a t => exact And.intro
  | error f t => exact And.intro

/-- What every action of a list keeps holds after them all. -/
theorem forM {I : Logged σ → Prop} {f : α → Action σ PUnit} {xs : List α}
    {E : Fault → Logged σ → Prop} (h : ∀ x ∈ xs, ∀ t, I t → (f x).wp (fun _ => I) E t) (hs : I s) :
    (xs.forM f).wp (fun _ => I) E s := by
  induction xs generalizing s with
  | nil => exact hs
  | cons x xs ih =>
    refine bind (weaken (h x List.mem_cons_self s hs) (fun _ t ht => ?_) fun _ _ hf => hf)
    exact ih (fun y hy => h y (List.mem_cons_of_mem _ hy)) ht

/-- Each action of a list answers to its item, and keeps what it finds. -/
theorem mapM {I : Logged σ → Prop} {R : α → β → Prop} {f : α → Action σ β} {xs : List α}
    {E : Fault → Logged σ → Prop} (h : ∀ x ∈ xs, ∀ t, I t → (f x).wp (fun y u => R x y ∧ I u) E t) (hs : I s) :
    (xs.mapM f).wp (fun ys u => List.Forall₂ R xs ys ∧ I u) E s := by
  induction xs generalizing s with
  | nil => exact ⟨List.Forall₂.nil, hs⟩
  | cons x xs ih =>
    rw [List.mapM_cons]
    refine bind (weaken (h x List.mem_cons_self s hs) (fun y t ht => ?_) fun _ _ hf => hf)
    refine bind (weaken (ih (fun z hz => h z (List.mem_cons_of_mem _ hz)) ht.2) (fun ys u hu => ?_) fun _ _ hf => hf)
    exact ⟨List.Forall₂.cons ht.1 hu.1, hu.2⟩

theorem report {e : Event} {Q : Unit → Logged σ → Prop} (hlow : e.level.rank < s.least.rank → Q () s)
    (hok : ¬ e.level.rank < s.least.rank → e.isWritable = true → Q () { s with log := s.log.push e })
    (herr : ¬ e.level.rank < s.least.rank → E .tooManyDigits s) : (report e).wp Q E s := by
  unfold wp Action.report
  cases Decidable.em (e.level.rank < s.least.rank) with
  | inl h => rw [if_pos h]; exact hlow h
  | inr h =>
    rw [if_neg h]
    cases hw : e.isWritable with
    | true => exact hok h hw
    | false => exact herr h

/-- An event that can be written is logged or passed over. -/
theorem report_of_writable {e : Event} {Q : Unit → Logged σ → Prop} (hw : e.isWritable = true) (h : Q () s)
    (hpush : Q () { s with log := s.log.push e }) : (Action.report e).wp Q E s := by
  unfold wp Action.report
  cases Decidable.em (e.level.rank < s.least.rank) with
  | inl hlow => rwa [if_pos hlow]
  | inr hlow => rwa [if_neg hlow, if_pos hw]

/-- What an action does to a part of the state. -/
theorem focus {τ : Type} {get : σ → τ} {set : τ → σ → σ} {act : Action τ α}
    (h : act.wp (fun a t => Q a { t with state := set t.state s.state })
      (fun f t => E f { t with state := set t.state s.state }) { s with state := get s.state }) :
    (focus get set act).wp Q E s := by
  unfold wp Action.focus at *
  revert h
  cases act { s with state := get s.state } with
  | ok a t => exact id
  | error f t => exact id

/-! ## What is left and what is answered -/

theorem after {act : Action σ α} {P : Logged σ → Prop} (h : act.wp (fun _ => P) (fun _ => P) s) :
    P (act.after s) := by
  unfold wp at h
  unfold Action.after
  revert h
  cases act s with
  | ok a t => exact id
  | error f t => exact id

theorem exists_ok {act : Action σ α} (h : act.wp Q (fun _ _ => False) s) : ∃ a t, act s = .ok a t ∧ Q a t := by
  unfold wp at h
  cases hact : act s with
  | ok a t =>
    rw [hact] at h
    exact ⟨a, t, rfl, h⟩
  | error f t =>
    rw [hact] at h
    exact h.elim

theorem exists_error {act : Action σ α} (h : act.wp (fun _ _ => False) E s) : ∃ f t, act s = .error f t ∧ E f t := by
  unfold wp at h
  cases hact : act s with
  | ok a t =>
    rw [hact] at h
    exact h.elim
  | error f t =>
    rw [hact] at h
    exact ⟨f, t, rfl, h⟩

theorem of_isOk {act : Action σ α} (h : (act.outcome s).isOk = true) (hQ : ∀ a, Q a (act.after s)) : act.wp Q E s := by
  unfold outcome at h
  unfold Action.after at hQ
  unfold wp
  revert h hQ
  cases act s with
  | ok a t => exact fun _ hQ => hQ a
  | error f t => exact fun h => nomatch h

theorem of_outcome_ok {act : Action σ α} (h : act.wp Q E s) {a : α} (ha : act.outcome s = .ok a) :
    Q a (act.after s) := by
  unfold wp at h
  unfold Action.after
  unfold Action.outcome at ha
  revert h ha
  cases act s with
  | ok b t =>
    rintro h ⟨⟩
    exact h
  | error f t => exact fun _ ha => nomatch ha

theorem of_outcome_error {act : Action σ α} (h : act.wp Q E s) {f : Fault}
    (hf : act.outcome s = .error f) : E f (act.after s) := by
  unfold wp at h
  unfold Action.after
  unfold Action.outcome at hf
  revert h hf
  cases act s with
  | ok b t => exact fun _ hf => nomatch hf
  | error g t =>
    rintro h ⟨⟩
    exact h

/-- What an outcome tells is told by the run. -/
theorem of_outcome {act : Action σ α} {Q : α → Prop} {E : Fault → Prop}
    (hok : ∀ a, act.outcome s = .ok a → Q a) (herr : ∀ f, act.outcome s = .error f → E f) :
    act.wp (fun a _ => Q a) (fun f _ => E f) s := by
  unfold Action.outcome at hok herr
  unfold wp
  revert hok herr
  cases act s with
  | ok b t => exact fun hok _ => hok b rfl
  | error g t => exact fun _ herr => herr g rfl

/-! ## First steps -/

theorem lift {x : Except Fault α} (hok : ∀ a, x = .ok a → Q a s) (herr : ∀ f, x = .error f → E f s) :
    wp (liftM x : Action σ α) Q E s := by
  cases x with
  | ok a => exact hok a rfl
  | error f => exact herr f rfl

theorem bind_lift {x : Except Fault β} {k : β → Action σ α} (herr : ∀ f, x = .error f → E f s)
    (hk : ∀ b, x = .ok b → (k b).wp Q E s) : wp (liftM x >>= k) Q E s :=
  bind (lift hk herr)

theorem bind_ok {x : Except Fault β} {y : β} {k : β → Action σ α} (hx : x = .ok y)
    (hk : (k y).wp Q E s) : wp (liftM x >>= k) Q E s :=
  bind_lift (fun _ hf => by rw [hx] at hf; cases hf) fun _ hy => Except.ok.inj (hx.symm.trans hy) ▸ hk

theorem bind_current {k : σ → Action σ α} (hk : (k s.state).wp Q E s) : wp (current >>= k) Q E s :=
  bind hk

end wp

end Conveyor.Action
