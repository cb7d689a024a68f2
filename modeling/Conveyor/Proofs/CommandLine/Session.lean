-- SUMMARY: What a session does from one given console: how it ends, and what it has printed by then.
import Conveyor.CommandLine.Session
import Conveyor.Proofs.WeakestPre

/-!
# Sessions, step by step

A fault stops a session with all that was printed before it. `wp` is the condition on one console under which
a session ends as it should, or is stopped as it should. An action on the factory is judged by its own `wp`;
a loop over items that may be found wrong keeps its invariant up to the first of them.
-/

namespace Conveyor.CommandLine.Session

variable {α β : Type} {c : Console}

/-- From `c` the session ends with `Q`, or a fault stops it with `E`. -/
def wp (session : Session α) (Q : α → Console → Prop) (E : Fault → Console → Prop) (c : Console) : Prop :=
  match session c with
  | .ok a d => Q a d
  | .error f d => E f d

variable {Q Q' : α → Console → Prop} {E E' : Fault → Console → Prop}

theorem afterAction_of_factory (c : Console) (least : Level) : afterAction c { state := c.factory, least } = c := by
  have hlines : eventLines [] = "" := rfl
  simp only [afterAction, hlines, String.append_empty]

namespace wp

/-! ## Structure -/

theorem weaken {session : Session α} (h : session.wp Q E c) (hQ : ∀ a d, Q a d → Q' a d)
    (hE : ∀ f d, E f d → E' f d) : session.wp Q' E' c := by
  unfold wp at h ⊢
  revert h
  cases session c with
  | ok a d => exact hQ a d
  | error f d => exact hE f d

theorem pure {a : α} (h : Q a c) : wp (pure a) Q E c := h

theorem throw {f : Fault} (h : E f c) : wp (throw f) Q E c := h

theorem bind {session : Session β} {k : β → Session α} (h : session.wp (fun b => (k b).wp Q E) E c) :
    wp (session >>= k) Q E c := by
  change match EStateM.bind session k c with
    | .ok a d => Q a d
    | .error f d => E f d
  unfold EStateM.bind
  unfold wp at h
  revert h
  cases session c with
  | ok b d => exact id
  | error f d => exact id

theorem ite {p : Prop} [Decidable p] {session session' : Session α} (ht : p → session.wp Q E c)
    (hf : ¬ p → session'.wp Q E c) : wp (if p then session else session') Q E c := by
  split
  · exact ht ‹_›
  · exact hf ‹_›

/-- Up to the first item that is found wrong each of them is right, and keeps what it finds. -/
theorem forM {I : Console → Prop} {R : α → Prop} {f : α → Session PUnit} {xs : List α}
    (h : ∀ x ∈ xs, ∀ c, I c → (f x).wp (fun _ d => R x ∧ I d) (fun e d => ¬ R x ∧ E e d) c) (hc : I c) :
    wp (xs.forM f) (fun _ d => (∀ x ∈ xs, R x) ∧ I d) (fun e d => (∃ x ∈ xs, ¬ R x) ∧ E e d) c := by
  induction xs generalizing c with
  | nil => exact ⟨fun _ hx => absurd hx List.not_mem_nil, hc⟩
  | cons x xs ih =>
    refine bind (weaken (h x List.mem_cons_self c hc) (fun _ d hd => ?_) fun e d he => ?_)
    · refine weaken (ih (fun y hy => h y (List.mem_cons_of_mem _ hy)) hd.2) (fun _ e he => ?_) fun e d he => ?_
      · exact ⟨List.forall_mem_cons.2 ⟨hd.1, he.1⟩, he.2⟩
      · obtain ⟨⟨y, hy, hwrong⟩, he⟩ := he
        exact ⟨⟨y, List.mem_cons_of_mem _ hy, hwrong⟩, he⟩
    · exact ⟨⟨x, List.mem_cons_self, he.1⟩, he.2⟩

/-- What every item keeps holds after them all. -/
theorem forM_keeps {I : Console → Prop} {f : α → Session PUnit} {xs : List α}
    (h : ∀ x ∈ xs, ∀ c, I c → (f x).wp (fun _ => I) (fun _ _ => False) c) (hc : I c) :
    wp (xs.forM f) (fun _ => I) (fun _ _ => False) c :=
  weaken (forM (R := fun _ => True) (E := fun _ _ => False) (fun x hx c hc =>
    weaken (h x hx c hc) (fun _ _ hd => ⟨trivial, hd⟩) fun _ _ he => he.elim) hc) (fun _ _ hd => hd.2) fun _ _ he => he.2

/-- The session ends or is stopped. -/
theorem elim {session : Session α} (h : session.wp Q E c) :
    (∃ a d, session c = .ok a d ∧ Q a d) ∨ ∃ f d, session c = .error f d ∧ E f d := by
  unfold wp at h
  cases hsession : session c with
  | ok a d =>
    rw [hsession] at h
    exact .inl ⟨a, d, rfl, h⟩
  | error f d =>
    rw [hsession] at h
    exact .inr ⟨f, d, rfl, h⟩

/-! ## Steps -/

/-- What a step keeps is there whether it is taken or left out. -/
theorem optional {p : Prop} [Decidable p] {I : Console → Prop} {session : Session PUnit} {k : PUnit → Session α}
    (hsession : p → session.wp (fun _ => I) (fun _ _ => False) c) (hc : I c) (hk : ∀ d, I d → (k ⟨⟩).wp Q E d) :
    wp (if p then session >>= k else k ⟨⟩) Q E c :=
  ite (fun hp => bind (weaken (hsession hp) (fun _ => hk) fun _ _ hf => hf.elim)) fun _ => hk c hc

theorem bind_ok {x : Except Fault β} {b : β} {k : β → Session α} (hx : x = .ok b) (hk : (k b).wp Q E c) :
    wp (liftM x >>= k) Q E c := by
  subst hx
  exact hk

theorem bind_get {k : Console → Session α} (hk : (k c).wp Q E c) : wp (get >>= k) Q E c := hk

theorem modify {f : Console → Console} {Q : PUnit → Console → Prop} (h : Q () (f c)) :
    wp (modify f : Session PUnit) Q E c := h

theorem perform {act : Action Factory α}
    (h : act.wp (fun a s => Q a (afterAction c s)) (fun f s => E f (afterAction c s))
      { state := c.factory, least := leastLevel c.verbose }) : wp (perform act) Q E c := by
  unfold wp Session.perform
  unfold Action.wp at h
  revert h
  cases act { state := c.factory, least := leastLevel c.verbose } with
  | ok a s => exact id
  | error f s => exact id

/-- A question that has an answer leaves no trace. -/
theorem bind_query {f : Factory → Except Fault β} {b : β} {k : β → Session α} (hf : f c.factory = .ok b)
    (hk : (k b).wp Q E c) : wp (query f >>= k) Q E c := by
  refine bind (perform (Action.wp.bind_current ?_))
  rw [hf]
  change (k b).wp Q E (afterAction c { state := c.factory, least := leastLevel c.verbose })
  rwa [afterAction_of_factory]

end wp

-- To unfold it is to run the session.
attribute [irreducible] wp

end Conveyor.CommandLine.Session
