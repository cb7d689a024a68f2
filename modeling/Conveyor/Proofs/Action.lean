-- SUMMARY: Hoare triples for actions: what holds after an action that answers, and after one that a fault stops.
import Conveyor.Action

/-!
# Triples

An action that is stopped keeps what it had changed before, so a statement about it has two
postconditions: one for its answer, one for the fault that stopped it. Both speak of the state; what
was reported on the way is left out. The rules `bind_current`, `bind_lift` and `bind_report` take
off the first step of an action and hand what it found on as a fact.
-/

namespace Conveyor.Action

variable {σ τ α β γ : Type}

/-- From a state with `P` an action answers with `Q`, or a fault stops it with `E`. -/
def Triple (P : σ → Prop) (act : Action σ α) (Q : α → σ → Prop) (E : Fault → σ → Prop) : Prop :=
  ∀ s, P s.state →
    match act s with
    | .ok a t => Q a t.state
    | .error f t => E f t.state

/-- From a state with `P` an action that answers answers with `Q`. Nothing is said about faults. -/
def Yields (P : σ → Prop) (act : Action σ α) (Q : α → σ → Prop) : Prop :=
  Triple P act Q fun _ _ => True

/-- What an action leaves, whether it answers or not. -/
def after (act : Action σ α) (s : Logged σ) : Logged σ :=
  match act s with
  | .ok _ t => t
  | .error _ t => t

/-- What an action answers, or the fault that stops it. -/
def outcome (act : Action σ α) (s : Logged σ) : Except Fault α :=
  match act s with
  | .ok a _ => .ok a
  | .error f _ => .error f

/-- The action keeps `P`, whether it answers or not. -/
def Keeps (P : σ → Prop) (act : Action σ α) : Prop :=
  Triple P act (fun _ => P) fun _ => P

variable {P P' : σ → Prop} {Q Q' : α → σ → Prop} {R : β → σ → Prop} {E E' : Fault → σ → Prop}
  {k : β → Action σ α}

namespace Triple

/-! ## Structure -/

theorem weaken {act : Action σ α} (h : Triple P act Q E) (hP : ∀ s, P' s → P s)
    (hQ : ∀ a s, Q a s → Q' a s) (hE : ∀ f s, E f s → E' f s) : Triple P' act Q' E' := by
  intro s hs
  have hact := h s (hP _ hs)
  revert hact
  cases act s with
  | ok a t => exact hQ a t.state
  | error f t => exact hE f t.state

/-- Two statements about one action hold together. -/
theorem and {act : Action σ α} (h : Triple P act Q E) (h' : Triple P act Q' E') :
    Triple P act (fun a s => Q a s ∧ Q' a s) fun f s => E f s ∧ E' f s := by
  intro s hs
  have hact := h s hs
  have hact' := h' s hs
  revert hact hact'
  cases act s with
  | ok a t => exact And.intro
  | error f t => exact And.intro

/-- What holds from each single state holds from all of them. -/
theorem fix {act : Action σ α} (h : ∀ a, P a → Triple (· = a) act Q E) : Triple P act Q E :=
  fun s hs => h s.state hs s rfl

theorem pure {a : α} (h : ∀ s, P s → Q a s) : Triple P (pure a) Q E :=
  fun s hs => h s.state hs

theorem bind {act : Action σ β} (h : Triple P act R E) (hk : ∀ b, Triple (R b) (k b) Q E) :
    Triple P (act >>= k) Q E := by
  intro s hs
  have hact := h s hs
  change match EStateM.bind act k s with
    | .ok a t => Q a t.state
    | .error f t => E f t.state
  unfold EStateM.bind
  revert hact
  cases act s with
  | ok b t => exact hk b t
  | error f t => exact id

theorem ite {c : Prop} [Decidable c] {act act' : Action σ α} (ht : c → Triple P act Q E)
    (hf : ¬c → Triple P act' Q E) : Triple P (if c then act else act') Q E := by
  split
  · exact ht ‹_›
  · exact hf ‹_›

/-- What every step of a fold turns from one accumulator into the next holds at the end. -/
theorem foldlM {I : β → σ → Prop} {f : β → α → Action σ β} {xs : List α}
    (h : ∀ b, ∀ x ∈ xs, Triple (I b) (f b x) I E) (b : β) : Triple (I b) (xs.foldlM f b) I E := by
  induction xs generalizing b with
  | nil => exact pure fun _ hs => hs
  | cons x xs ih =>
    rw [List.foldlM_cons]
    exact bind (h b x List.mem_cons_self) (ih fun c y hy => h c y (List.mem_cons_of_mem _ hy))

/-- A fold whose steps each add an item to those that are done. -/
theorem foldlM_done {I : List α → β → σ → Prop} {f : β → α → Action σ β} {xs : List α}
    (h : ∀ done b, ∀ x ∈ xs, Triple (I done b) (f b x) (I (x :: done)) E) (done : List α) (b : β) :
    Triple (I done b) (xs.foldlM f b) (I (xs.reverse ++ done)) E := by
  induction xs generalizing done b with
  | nil => exact pure fun _ hs => hs
  | cons x xs ih =>
    rw [List.foldlM_cons, List.reverse_cons, List.append_assoc]
    exact bind (h done b x List.mem_cons_self) fun c =>
      ih (fun done b y hy => h done b y (List.mem_cons_of_mem _ hy)) (x :: done) c

theorem forM_done {I : List α → σ → Prop} {f : α → Action σ PUnit} {xs : List α}
    (h : ∀ done, ∀ x ∈ xs, Triple (I done) (f x) (fun _ => I (x :: done)) E) (done : List α) :
    Triple (I done) (xs.forM f) (fun _ => I (xs.reverse ++ done)) E := by
  induction xs generalizing done with
  | nil => exact pure fun _ hs => hs
  | cons x xs ih =>
    rw [List.reverse_cons, List.append_assoc]
    exact bind (h done x List.mem_cons_self) fun _ =>
      ih (fun done y hy => h done y (List.mem_cons_of_mem _ hy)) (x :: done)

theorem forM {f : α → Action σ PUnit} {xs : List α}
    (h : ∀ x ∈ xs, Triple P (f x) (fun _ => P) E) : Triple P (xs.forM f) (fun _ => P) E := by
  induction xs with
  | nil => exact pure fun _ hs => hs
  | cons x xs ih =>
    exact bind (h x List.mem_cons_self) fun _ => ih fun y hy => h y (List.mem_cons_of_mem _ hy)

/-- What every action of a list answers with holds of all its answers. -/
theorem mapM_forall {R : β → Prop} {f : α → Action σ β} {xs : List α}
    (h : ∀ x ∈ xs, Triple P (f x) (fun b s => P s ∧ R b) E) :
    Triple P (xs.mapM f) (fun bs s => P s ∧ ∀ b ∈ bs, R b) E := by
  induction xs with
  | nil => exact pure fun _ hs => ⟨hs, fun _ hb => absurd hb List.not_mem_nil⟩
  | cons x xs ih =>
    rw [List.mapM_cons]
    refine bind (h x List.mem_cons_self) fun b => ?_
    refine bind (R := fun bs s => (P s ∧ ∀ b ∈ bs, R b) ∧ R b) ?_ fun bs => pure fun s hs => ?_
    · refine fix fun s hs => (ih fun y hy => h y (List.mem_cons_of_mem _ hy)).weaken
        (fun _ ht => ht ▸ hs.1) (fun _ _ ht => ⟨ht, hs.2⟩) fun _ _ ht => ht
    · exact ⟨hs.1.1, List.forall_mem_cons.2 ⟨hs.2, hs.1.2⟩⟩

theorem mapM {f : α → Action σ β} {xs : List α} (h : ∀ x ∈ xs, Triple P (f x) (fun _ => P) E) :
    Triple P (xs.mapM f) (fun _ => P) E :=
  (mapM_forall (R := fun _ => True) fun x hx => (h x hx).weaken (fun _ hs => hs)
    (fun _ _ hs => ⟨hs, trivial⟩) fun _ _ hs => hs).weaken (fun _ hs => hs) (fun _ _ hs => hs.1)
    fun _ _ hs => hs

/-! ## First steps -/

theorem lift {x : Except Fault α} (hok : ∀ a, x = .ok a → ∀ s, P s → Q a s)
    (herr : ∀ f, x = .error f → ∀ s, P s → E f s) : Triple P (liftM x : Action σ α) Q E := by
  intro s hs
  cases x with
  | ok a => exact hok a rfl s.state hs
  | error f => exact herr f rfl s.state hs

theorem bind_lift {x : Except Fault β} (herr : ∀ f, x = .error f → ∀ s, P s → E f s)
    (hk : ∀ b, x = .ok b → Triple P (k b) Q E) : Triple P (liftM x >>= k) Q E :=
  bind (R := fun b s => x = .ok b ∧ P s) (lift (fun _ hb _ hs => ⟨hb, hs⟩) herr)
    fun b s hs => hk b hs.1 s hs.2

theorem bind_current {k : σ → Action σ α} (hk : ∀ a, P a → Triple (· = a) (k a) Q E) :
    Triple P (current >>= k) Q E :=
  fun s hs => hk s.state hs s rfl

theorem assign {b : σ} {Q : Unit → σ → Prop} (h : ∀ s, P s → Q () b) :
    Triple P (assign b) Q E :=
  fun s hs => h s.state hs

theorem update {f : σ → σ} {Q : Unit → σ → Prop} (h : ∀ s, P s → Q () (f s)) :
    Triple P (update f) Q E :=
  fun s hs => h s.state hs

theorem report {e : Event} {Q : Unit → σ → Prop} (hok : ∀ s, P s → Q () s)
    (herr : ∀ s, P s → E .tooManyDigits s) : Triple P (report e) Q E := by
  intro s hs
  unfold Action.report
  cases Decidable.em (e.level.rank < s.least.rank) with
  | inl hlow => rw [if_pos hlow]; exact hok s.state hs
  | inr hlow =>
    rw [if_neg hlow]
    cases hw : e.isWritable with
    | true => exact hok s.state hs
    | false => exact herr s.state hs

theorem bind_report {e : Event} {k : Unit → Action σ α} (herr : ∀ s, P s → E .tooManyDigits s)
    (hk : Triple P (k ()) Q E) : Triple P (Action.report e >>= k) Q E :=
  bind (report (fun _ hs => hs) herr) fun _ => hk

theorem focus {get : σ → τ} {set : τ → σ → σ} {act : Action τ α} {S : α → τ → Prop}
    {F : Fault → τ → Prop} (h : ∀ a, P a → Triple (· = get a) act S F)
    (hQ : ∀ a, P a → ∀ x t, S x t → Q x (set t a))
    (hE : ∀ a, P a → ∀ f t, F f t → E f (set t a)) : Triple P (focus get set act) Q E := by
  intro s hs
  have hact := h s.state hs { s with state := get s.state } rfl
  unfold Action.focus
  revert hact
  cases act { s with state := get s.state } with
  | ok x t => exact hQ s.state hs x t.state
  | error f t => exact hE s.state hs f t.state

end Triple

/-! ## Actions that answer -/

namespace Yields

theorem bind {act : Action σ β} (h : Yields P act R) (hk : ∀ b, Yields (R b) (k b) Q) :
    Yields P (act >>= k) Q :=
  Triple.bind h hk

theorem bind_lift {x : Except Fault β} (hk : ∀ b, x = .ok b → Yields P (k b) Q) :
    Yields P (liftM x >>= k) Q :=
  Triple.bind_lift (fun _ _ _ _ => trivial) hk

theorem bind_current {k : σ → Action σ α} (hk : ∀ a, P a → Yields (· = a) (k a) Q) :
    Yields P (current >>= k) Q :=
  Triple.bind_current hk

theorem weaken {act : Action σ α} (h : Yields P act Q) (hP : ∀ s, P' s → P s)
    (hQ : ∀ a s, Q a s → Q' a s) : Yields P' act Q' :=
  Triple.weaken h hP hQ fun _ _ => id

/-- The answer and the state that an action gives have `Q`. -/
theorem of_eq_ok {act : Action σ α} (h : Yields P act Q) {s t : Logged σ} {a : α} (hs : P s.state)
    (hact : act s = .ok a t) : Q a t.state := by
  have hpost := h s hs
  rwa [hact] at hpost

end Yields

/-! ## Actions that keep a property -/

namespace Keeps

theorem pure {a : α} : Keeps P (pure a : Action σ α) :=
  Triple.pure fun _ hs => hs

theorem bind {act : Action σ β} (h : Keeps P act) (hk : ∀ b, Keeps P (k b)) :
    Keeps P (act >>= k) :=
  Triple.bind h hk

theorem yields {act : Action σ α} (h : Keeps P act) : Yields P act fun _ => P :=
  Triple.weaken h (fun _ hs => hs) (fun _ _ hs => hs) fun _ _ _ => trivial

theorem lift {x : Except Fault α} : Keeps P (liftM x : Action σ α) :=
  Triple.lift (fun _ _ _ hs => hs) fun _ _ _ hs => hs

theorem bind_lift {x : Except Fault β} (hk : ∀ b, x = .ok b → Keeps P (k b)) :
    Keeps P (liftM x >>= k) :=
  Triple.bind_lift (fun _ _ _ hs => hs) hk

/-- The state that an action reads has the property, so it is enough to keep it from there on. -/
theorem bind_current {k : σ → Action σ α} (hk : ∀ a, P a → Keeps P (k a)) :
    Keeps P (current >>= k) :=
  Triple.bind_current fun a ha => (hk a ha).weaken (fun _ hs => hs ▸ ha)
    (fun _ _ hs => hs) fun _ _ hs => hs

theorem assign {b : σ} (h : P b) : Keeps P (assign b) :=
  Triple.assign fun _ _ => h

theorem update {f : σ → σ} (h : ∀ s, P s → P (f s)) : Keeps P (update f) :=
  Triple.update h

theorem report {e : Event} : Keeps P (report e) :=
  Triple.report (fun _ hs => hs) fun _ hs => hs

theorem forM {f : α → Action σ PUnit} {xs : List α} (h : ∀ x ∈ xs, Keeps P (f x)) :
    Keeps P (xs.forM f) :=
  Triple.forM h

theorem mapM {f : α → Action σ β} {xs : List α} (h : ∀ x ∈ xs, Keeps P (f x)) :
    Keeps P (xs.mapM f) :=
  Triple.mapM h

/-- What the action leaves has the property, whether it answers or not. -/
theorem after {act : Action σ α} (h : Keeps P act) {s : Logged σ} (hs : P s.state) :
    P (act.after s).state := by
  have hact := h s hs
  unfold Action.after
  revert hact
  cases act s with
  | ok _ t => exact id
  | error _ t => exact id

end Keeps

/-! ## Actions that are stopped -/

/-- What is stopped in its first step is stopped there. -/
theorem bind_of_error {act : Action σ β} {f : Fault} {s t : Logged σ} (h : act s = .error f t) :
    (act >>= k) s = .error f t := by
  change EStateM.bind act k s = _
  unfold EStateM.bind
  rw [h]

theorem focus_of_error {get : σ → τ} {set : τ → σ → σ} {act : Action τ α} {f : Fault} {s : Logged σ}
    {t : Logged τ} (h : act { s with state := get s.state } = .error f t) :
    focus get set act s = .error f { t with state := set t.state s.state } := by
  unfold focus
  rw [h]

end Conveyor.Action
