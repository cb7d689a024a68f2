-- SUMMARY: Every call keeps a factory well formed, and a call that is refused leaves it as it was.
import Conveyor.Proofs.Acyclic
import Conveyor.Proofs.Factory.Calls
import Conveyor.Proofs.Factory.WellFormed
import Conveyor.Proofs.WeakestPre

/-!
# Refused calls

Most calls make all their checks before they change anything. Two go on to change the factory while
there is still something to refuse: balancing and ticking could meet a cycle, but a well-formed factory
has none; and the streams on the way to a stream are appended one by one, but they are dropped again.
So a refusal leaves no trace. Any other fault may, but what it leaves is well formed.
-/

namespace Conveyor

theorem Refusal.kind_withOwner (owner : String) (r : Refusal) : (r.withOwner owner).kind = r.kind := by
  cases r <;> rfl

namespace Factory

/-! ## Checks -/

theorem notCyclic_resolve {α : Type} (sort : Definition) (table : Table String α) (name : Value) :
    NotCyclic (resolve sort table name) := by
  unfold resolve
  split
  · split
    · exact Faults.ok _
    · exact notCyclic_fail nofun
  · exact Faults.ite (fun _ => notCyclic_fail nofun) fun _ => Faults.error nofun

theorem notCyclic_requireInt (quantity : Quantity) (owner : Option String) (minimum : Int)
    (value : Value) : NotCyclic (requireInt quantity owner minimum value) := by
  unfold requireInt
  split
  · exact notCyclic_fail nofun
  · exact Faults.ite (fun _ => notCyclic_fail nofun) fun _ => Faults.ok _

theorem notCyclic_parts (f : Factory) (owner : String) (value : Value) :
    NotCyclic (f.parts owner value) := by
  unfold parts
  split
  · refine Faults.mapM fun item _ => ?_
    unfold part
    split
    · exact (notCyclic_resolve _ _ _).bind fun _ _ => Faults.ok _
    · exact (notCyclic_requireInt _ _ _ _).bind fun _ _ =>
        (notCyclic_resolve _ _ _).bind fun _ _ => Faults.ok _
    · exact notCyclic_fail nofun
  · exact Faults.error nofun

theorem unrefused_streamName (f : Factory) (i : Nat) : Unrefused (f.streamName i) := by
  unfold streamName
  split
  · exact Faults.ok _
  · exact Faults.error rfl

theorem unrefused_productName (f : Factory) (p : Product) : Unrefused (f.productName p) := by
  unfold productName
  split
  · exact Faults.ok _
  · exact Faults.error rfl

theorem unrefused_ofPeriod (period : Value) (inputs outputs : List Part) :
    Unrefused (Recipe.ofPeriod period inputs outputs) := by
  unfold Recipe.ofPeriod
  split
  · split
    · exact Faults.ok _
    · exact Faults.stop rfl rfl
  · exact Faults.stop rfl rfl

theorem notCyclic_ownedBy {α : Type} {x : Except Fault α} (h : NotCyclic x) (owner : String) :
    NotCyclic (ownedBy owner x) := by
  unfold ownedBy
  split
  next r =>
    refine Faults.error fun hr => h _ rfl ?_
    rwa [Fault.kind?, Refusal.kind_withOwner] at hr
  · exact h

theorem notCyclic_add (a : Arena) (recipe : Recipe) (bindings : List (Product × Int)) (mult m : Int) :
    NotCyclic (a.add recipe bindings mult m) := by
  refine Faults.ite (fun _ => notCyclic_fail nofun) fun _ => ?_
  refine Faults.ite (fun _ => notCyclic_fail nofun) fun _ => ?_
  refine Faults.bind (Faults.mapM fun binding _ => ?_) fun _ _ => Faults.ok _
  exact Faults.ite (fun _ => Faults.ok _) fun _ => notCyclic_fail nofun

/-! ## Queries -/

namespace WellFormed

variable {f : Factory}

theorem notCyclic_efficiency (hf : f.WellFormed) (stream : String) :
    NotCyclic (f.efficiency stream) :=
  (notCyclic_resolve _ _ _).bind fun i _ =>
    (Arena.efficiency_unrefused (hf.arena.bindsEarlier.acyclicFrom i)).notCyclic

theorem notCyclic_arenaRateOf (hf : f.WellFormed) (i : Nat) (p : Product) :
    NotCyclic (f.arena.rateOf i p) :=
  (Arena.rateOf_unrefused (Arena.efficiency_unrefused (hf.arena.bindsEarlier.acyclicFrom i)) p).notCyclic

theorem notCyclic_rateOf (hf : f.WellFormed) (stream product : String) :
    NotCyclic (f.rateOf stream product) :=
  (notCyclic_resolve _ _ _).bind fun i _ => (notCyclic_resolve _ _ _).bind fun p _ =>
    hf.notCyclic_arenaRateOf i p

theorem notCyclic_report (hf : f.WellFormed) (stream : String) (products : List String) :
    NotCyclic (f.report stream products) := by
  have hwanted (s : Stream) : NotCyclic (f.reportedProducts s products) :=
    Faults.ite (fun _ => Faults.mapM fun p _ => (unrefused_productName f p).notCyclic.bind fun _ _ => Faults.ok _)
      fun _ => Faults.mapM fun _ _ => (notCyclic_resolve _ _ _).bind fun _ _ => Faults.ok _
  refine (notCyclic_resolve _ _ _).bind fun i _ => (Unrefused.stream _ _).notCyclic.bind fun s _ => ?_
  refine (hwanted s).bind fun wanted _ => Faults.bind (Faults.foldlM (fun rates entry _ => ?_) _)
    fun _ _ => Faults.ok _
  refine (hf.notCyclic_arenaRateOf i entry.2).bind fun rate _ => ?_
  cases rate with
  | some rate => exact Faults.ok _
  | none => exact notCyclic_fail nofun

end WellFormed

/-! ## Calls that are safe to fail -/

/-- What a fault leaves of a factory that was `s`: one that is well formed, and `s` itself, log and
all, if the fault is a refusal. None is for a cycle. -/
structure Stopped (s : Logged Factory) (f : Fault) (t : Logged Factory) : Prop where
  wellFormed : t.state.WellFormed
  unchanged : ∀ r, f = .refused r → t = s
  notCyclic : f.kind? ≠ some .cycle

/-- From the well-formed `s` the action leaves a well-formed factory, and `s` if it is refused. -/
abbrev SafeFrom {α : Type} (s : Logged Factory) (act : Action Factory α) : Prop :=
  act.wp (fun _ t => t.state.WellFormed) (Stopped s) s

/-- The action leaves a well-formed factory and is not refused. -/
abbrev Finishes {α : Type} (P : Factory → Prop) (act : Action Factory α) : Prop :=
  Action.Triple P act (fun _ => WellFormed) fun f t => t.WellFormed ∧ f.kind? = none

variable {α β : Type} {s : Logged Factory}

theorem Stopped.of_notCyclic (hs : s.state.WellFormed) {x : Except Fault α} (h : NotCyclic x) :
    ∀ f, x = .error f → Stopped s f s :=
  fun f hf => ⟨hs, fun _ _ => rfl, h f hf⟩

namespace SafeFrom

theorem lift (hs : s.state.WellFormed) {x : Except Fault α} (h : NotCyclic x) :
    SafeFrom s (liftM x : Action Factory α) :=
  Action.wp.lift (fun _ _ => hs) (Stopped.of_notCyclic hs h)

theorem bind_lift (hs : s.state.WellFormed) {x : Except Fault β} (h : NotCyclic x)
    {k : β → Action Factory α} (hk : ∀ b, x = .ok b → SafeFrom s (k b)) : SafeFrom s (liftM x >>= k) :=
  Action.wp.bind_lift (Stopped.of_notCyclic hs h) hk

/-- Once nothing is left to refuse, what is left only has to finish. -/
theorem of_finishes {t : Logged Factory} {act : Action Factory α} (h : Finishes (· = t.state) act) :
    act.wp (fun _ u => u.state.WellFormed) (Stopped s) t :=
  (Action.wp.of_triple h).weaken (fun _ _ ht => ht) fun f _ ht =>
    ⟨ht.1, fun r hr => by rw [hr] at ht; exact absurd ht.2 nofun, by rw [ht.2]; exact nofun⟩

theorem map {act : Action Factory β} (h : SafeFrom s act) (g : β → α) :
    SafeFrom s (act >>= fun b => pure (g b)) :=
  Action.wp.bind (h.weaken (fun _ _ ht => ht) fun _ _ ht => ht)

end SafeFrom

/-! ## Products and recipes -/

theorem safe_registerProduct (hs : s.state.WellFormed) (name module : String) :
    SafeFrom s (registerProduct name module) := by
  refine .bind_current (.ite (fun _ => SafeFrom.lift hs (notCyclic_fail nofun)) fun hname => ?_)
  have hnew := Table.contains_eq_false_iff.1 (Bool.eq_false_iff.2 hname)
  have hadded := hs.addProduct (hs.catalogue.add hnew (hs.catalogue.modules.number module)
    (s.state.modules.number module).1)
  refine SafeFrom.of_finishes (.bind (R := fun _ => WellFormed) (.assign fun _ _ => hadded) fun _ => ?_)
  exact .bind_report (fun _ ht => ⟨ht, rfl⟩) (.pure fun _ ht => ht)

theorem safe_registerRecipe (hs : s.state.WellFormed) (name : String) (inputs outputs period : Value) :
    SafeFrom s (registerRecipe name inputs outputs period) := by
  refine .bind_current (.ite (fun _ => SafeFrom.lift hs (notCyclic_fail nofun)) fun hname => ?_)
  refine SafeFrom.bind_lift hs (notCyclic_parts _ _ _) fun inputs hinputs => ?_
  refine SafeFrom.bind_lift hs (notCyclic_parts _ _ _) fun outputs houtputs => ?_
  refine SafeFrom.bind_lift hs (notCyclic_requireInt _ _ _ _) fun ticks _ => ?_
  refine SafeFrom.bind_lift hs (unrefused_ofPeriod _ _ _).notCyclic fun recipe hrecipe => ?_
  obtain ⟨n, hn, _, rfl⟩ := ofPeriod_eq_ok hrecipe
  have hadded := hs.addRecipe (Table.contains_eq_false_iff.1 (Bool.eq_false_iff.2 hname))
    (every_of_parts hn hinputs houtputs).1 ⟨n, Recipe.every_isTimed hn inputs outputs⟩
  refine SafeFrom.of_finishes (.bind (R := fun _ => WellFormed) (.assign fun _ _ => hadded) fun _ => ?_)
  exact .bind_report (fun _ ht => ⟨ht, rfl⟩) (.pure fun _ ht => ht)

/-! ## Streams -/

/-- Streams with their labels may have been appended, and nothing else has changed. -/
structure Appended (s t : Logged Factory) : Prop where
  log : t.log = s.log
  least : t.least = s.least
  state : ∃ streams labels, t.state = { s.state with
    arena := ⟨s.state.arena.streams ++ streams⟩
    labels := s.state.labels ++ labels }

namespace Appended

variable {t u : Logged Factory}

theorem refl (s : Logged Factory) : Appended s s :=
  ⟨rfl, rfl, [], [], by simp only [List.append_nil]⟩

theorem trans (h : Appended s t) (h' : Appended t u) : Appended s u where
  log := h'.log.trans h.log
  least := h'.least.trans h.least
  state := by
    obtain ⟨xs, ls, hstate⟩ := h.state
    obtain ⟨ys, ms, hstate'⟩ := h'.state
    refine ⟨xs ++ ys, ls ++ ms, ?_⟩
    rw [hstate', hstate]
    simp only [List.append_assoc]

theorem recipes (h : Appended s t) : t.state.recipes = s.state.recipes := by
  obtain ⟨_, _, hstate⟩ := h.state
  rw [hstate]

theorem streams (h : Appended s t) : t.state.streams = s.state.streams := by
  obtain ⟨_, _, hstate⟩ := h.state
  rw [hstate]

theorem size_le (h : Appended s t) : s.state.arena.size ≤ t.state.arena.size := by
  obtain ⟨streams, _, hstate⟩ := h.state
  have hlength : t.state.arena.size = (s.state.arena.streams ++ streams).length := by rw [hstate]; rfl
  rw [hlength, List.length_append]
  exact Nat.le_add_right _ _

/-- Dropping what comes after the streams and labels that were there undoes all of it. -/
theorem truncate (h : Appended s t) (hs : s.state.WellFormed) :
    { t with state := t.state.truncate s.state.arena.size } = s := by
  obtain ⟨streams, labels, hstate⟩ := h.state
  have harena : Arena.truncate ⟨s.state.arena.streams ++ streams⟩ s.state.arena.size = s.state.arena := by
    simp [Arena.truncate, Arena.cut, Arena.size]
  have hlabels : (s.state.labels ++ labels).take s.state.arena.size = s.state.labels :=
    List.take_left' hs.labels_length
  have htruncate : t.state.truncate s.state.arena.size = s.state := by
    rw [hstate, Factory.truncate, harena, hlabels]
  rw [htruncate, h.log, h.least]

end Appended

/-- Whether it answers or not, the action has only appended streams to a factory that is well formed
still. It answers with `Q`, and is not refused for a cycle. -/
abbrev Builds (s : Logged Factory) (act : Action Factory α) (Q : α → Logged Factory → Prop) : Prop :=
  act.wp (fun a t => (Appended s t ∧ t.state.WellFormed) ∧ Q a t)
    (fun f t => (Appended s t ∧ t.state.WellFormed) ∧ f.kind? ≠ some .cycle) s

namespace Builds

variable {Q : α → Logged Factory → Prop} {R : β → Logged Factory → Prop}

theorem pure (hs : s.state.WellFormed) {a : α} (h : Q a s) : Builds s (pure a) Q :=
  Action.wp.pure ⟨⟨.refl s, hs⟩, h⟩

theorem lift (hs : s.state.WellFormed) {x : Except Fault α} (h : NotCyclic x)
    (hQ : ∀ a, x = .ok a → Q a s) : Builds s (liftM x : Action Factory α) Q :=
  Action.wp.lift (fun a ha => ⟨⟨.refl s, hs⟩, hQ a ha⟩) fun f hf => ⟨⟨.refl s, hs⟩, h f hf⟩

theorem fail (hs : s.state.WellFormed) {r : Refusal} (h : r.kind ≠ .cycle) :
    Builds s (liftM (r.fail : Except Fault α) : Action Factory α) Q :=
  lift hs (notCyclic_fail h) nofun

theorem bind_lift (hs : s.state.WellFormed) {x : Except Fault β} (h : NotCyclic x)
    {k : β → Action Factory α} (hk : ∀ b, x = .ok b → Builds s (k b) Q) : Builds s (liftM x >>= k) Q :=
  Action.wp.bind_lift (fun f hf => ⟨⟨.refl s, hs⟩, h f hf⟩) hk

theorem bind {act : Action Factory β} {k : β → Action Factory α} (h : Builds s act R)
    (hk : ∀ b t, Appended s t → t.state.WellFormed → R b t → Builds t (k b) Q) :
    Builds s (act >>= k) Q := by
  refine Action.wp.bind (h.weaken (fun b t ht => ?_) fun _ _ ht => ht)
  exact (hk b t ht.1.1 ht.1.2 ht.2).weaken (fun _ _ hu => ⟨⟨ht.1.1.trans hu.1.1, hu.1.2⟩, hu.2⟩)
    fun _ _ hu => ⟨⟨ht.1.1.trans hu.1.1, hu.1.2⟩, hu.2⟩

end Builds

theorem builds_append (hs : s.state.WellFormed) (owner : String) {recipeName : String} {recipe : Recipe}
    (hrecipe : s.state.recipes.get? recipeName = some recipe) {bindings : List (Product × Nat)}
    (hbindings : bindings.map Prod.fst = recipe.inputs.map Part.product) (mult : Int) :
    Builds s (append owner recipeName recipe bindings mult)
      fun index t => index = s.state.arena.size ∧ index < t.state.arena.size := by
  refine Action.wp.bind_current (Builds.bind_lift hs (notCyclic_ownedBy (notCyclic_add _ _ _ _ _) owner) ?_)
  intro (index, arena) hadd
  obtain ⟨slots, hslots, _, hmult, rfl, rfl⟩ := Arena.add_eq_ok (eq_ok_of_ownedBy hadd)
  have hbound := List.forall₂_map_left_iff.1 (Result.mapM_eq_ok.1 hslots)
  have hproducts : slots.map Slot.product = recipe.inputs.map Part.product := by
    rw [← hbindings, ← List.forall₂_eq_eq_eq, List.forall₂_map_left_iff, List.forall₂_map_right_iff]
    exact hbound.flip.imp fun _ _ h => (Arena.slot_eq_ok h).1
  have hearlier : ∀ slot ∈ slots, slot.supplier < s.state.arena.size := fun slot hslot => by
    obtain ⟨_, _, h⟩ := Result.exists_of_forall₂ hbound hslot
    exact (Arena.slot_eq_ok h).2
  have happended := hs.append hrecipe hproducts hearlier hmult s.state.config.bufferMultiplier
  refine ⟨⟨⟨rfl, rfl, _, _, rfl⟩, happended⟩, rfl, ?_⟩
  simp [Arena.size]

theorem builds_bindAll_of (owner : String) {values : List Value}
    (h : ∀ value ∈ values, ∀ s : Logged Factory, s.state.WellFormed →
      Builds s (bind owner value) fun _ _ => True)
    {ps : List Product} (hlength : values.length = ps.length) (s : Logged Factory)
    (hs : s.state.WellFormed) :
    Builds s (bindAll owner ps values) fun bindings _ => bindings.map Prod.fst = ps := by
  induction values generalizing ps s with
  | nil =>
    obtain rfl := List.length_eq_zero_iff.1 hlength.symm
    exact Builds.pure hs rfl
  | cons value values ih =>
    obtain ⟨p, ps, rfl⟩ := List.exists_cons_of_length_eq_add_one hlength.symm
    rw [bindAll]
    refine (h value List.mem_cons_self s hs).bind fun index t _ ht _ => ?_
    refine (ih (fun v hv => h v (List.mem_cons_of_mem _ hv)) (Nat.succ.inj hlength) t ht).bind ?_
    exact fun rest u _ hu hrest => Builds.pure hu (congrArg (p :: ·) hrest)

/-- Binding a value appends the streams of the calls in it, the one that it stands for last. -/
theorem builds_bind (owner : String) : ∀ value, ∀ s : Logged Factory, s.state.WellFormed →
    Builds s (bind owner value) fun index t => index < t.state.arena.size ∧
      ∀ recipe args mult, value = .call recipe args mult → s.state.arena.size ≤ index
  | .stream name => by
    intro s hs
    rw [bind]
    refine Action.wp.bind_current (Builds.lift hs (notCyclic_resolve _ _ _) fun index hindex => ?_)
    obtain ⟨_, _, hname⟩ := get?_of_resolve hindex
    exact ⟨hs.index_lt hname, by rintro _ _ _ ⟨⟩⟩
  | .call name args mult => by
    intro s hs
    rw [bind]
    refine Action.wp.bind_current (Builds.bind_lift hs (notCyclic_resolve _ _ _) fun recipe hrecipe => ?_)
    refine Builds.bind_lift hs (notCyclic_requireInt _ _ _ _) fun mult _ => ?_
    refine .ite (fun _ => Builds.fail hs (by rintro ⟨⟩)) fun hlength => ?_
    obtain ⟨recipeName, rfl, hregistered⟩ := get?_of_resolve hrecipe
    have hlength : args.length = (recipe.inputs.map Part.product).length := by simpa using hlength
    have hargs : ∀ value ∈ args, ∀ s : Logged Factory, s.state.WellFormed →
        Builds s (bind owner value) fun _ _ => True := fun value _ t ht =>
      (builds_bind owner value t ht).weaken (fun _ _ hu => ⟨hu.1, trivial⟩) fun _ _ hu => hu
    refine (builds_bindAll_of owner hargs hlength s hs).bind fun bindings t hst ht hbindings => ?_
    refine (builds_append ht owner (hst.recipes ▸ hregistered) hbindings mult).weaken ?_ fun _ _ hu => hu
    rintro index u ⟨hu, rfl, hindex⟩
    exact ⟨hu, hindex, fun _ _ _ _ => hst.size_le⟩
  | .none | .bool _ | .int _ | .real _ | .text _ | .list _ | .record _ | .part _ _ => by
    intro s hs
    rw [bind]
    · exact Builds.fail hs (by rintro ⟨⟩)
    all_goals intros; contradiction

theorem wp_undoingStreams {act : Action Factory α} {Q : α → Logged Factory → Prop}
    {E : Fault → Logged Factory → Prop} (h : act.wp Q (fun f t =>
      (∀ r, f = .refused r → E f { t with state := t.state.truncate s.state.arena.size }) ∧
        ((∀ r, f ≠ .refused r) → E f t)) s) : (undoingStreams act).wp Q E s := by
  unfold Action.wp undoingStreams at *
  revert h
  cases act s with
  | ok a t => exact id
  | error f t =>
    rintro ⟨hrefused, hforeign⟩
    cases f with
    | refused r => exact hrefused r rfl
    | _ => exact hforeign fun _ h => nomatch h

/-- A stream that is refused is dropped with all that was built for it. -/
theorem safe_registerStream (hs : s.state.WellFormed) (name : String) (definition : Value) :
    SafeFrom s (registerStream name definition) := by
  refine Action.wp.bind_current (.ite (fun _ => SafeFrom.lift hs (notCyclic_fail nofun)) fun hname => ?_)
  have hnew := Table.contains_eq_false_iff.1 (Bool.eq_false_iff.2 hname)
  split
  swap
  · exact SafeFrom.lift hs (notCyclic_fail nofun)
  refine Action.wp.bind (wp_undoingStreams ((builds_bind name _ s hs).weaken ?answers ?stops))
  case answers =>
    rintro index t ⟨⟨hst, ht⟩, hindex, hsize⟩
    have hunnamed : ∀ other, t.state.streams.get? other ≠ some index := fun other hother =>
      Nat.not_lt.2 (hsize _ _ _ rfl) (hs.index_lt (hst.streams ▸ hother))
    have hnamed := ht.addName (hst.streams ▸ hnew) hindex hunnamed
    refine SafeFrom.of_finishes (.bind (R := fun _ => WellFormed) (.update fun _ h => h ▸ hnamed) fun _ => ?_)
    exact .bind_report (fun _ hu => ⟨hu, rfl⟩) (.pure fun _ hu => hu)
  case stops =>
    rintro fault t ⟨⟨hst, ht⟩, hcycle⟩
    have hundone := hst.truncate hs
    refine ⟨fun r _ => ⟨?_, fun _ _ => hundone, hcycle⟩, fun hforeign => ⟨ht, fun r h => absurd h (hforeign r), hcycle⟩⟩
    rw [hundone]
    exact hs

/-! ## Driving -/

theorem safe_setBuffer (hs : s.state.WellFormed) (stream product : String) (capacity : Value) :
    SafeFrom s (setBuffer stream product capacity) := by
  refine Action.wp.bind_current (SafeFrom.bind_lift hs (notCyclic_resolve _ _ _) fun i _ => ?_)
  refine SafeFrom.bind_lift hs (Unrefused.stream _ _).notCyclic fun r hr => ?_
  refine SafeFrom.bind_lift hs (notCyclic_resolve _ _ _) fun p _ => ?_
  refine SafeFrom.bind_lift hs (notCyclic_requireInt _ _ _ _) fun capacity _ => ?_
  split
  · exact SafeFrom.lift hs (notCyclic_fail nofun)
  next b _ =>
    have hresized := hs.withArena (.modify (i := i) (f := fun s =>
      { s with buffers := s.buffers.insert p (b.resize capacity) }) fun _ _ => ⟨rfl, rfl, Int.le_refl _⟩)
    refine SafeFrom.of_finishes (.bind (R := fun _ => WellFormed) (.assign fun _ _ => hresized) fun _ => ?_)
    exact .ite (fun _ => .report (fun _ ht => ht) fun _ ht => ⟨ht, rfl⟩) fun _ => .pure fun _ ht => ht

/-- What only raises multipliers and is not refused finishes. -/
theorem finishes_onArena {f : Factory} (hf : WellFormed f) {act : Action Arena α}
    (hraised : Action.Keeps f.arena.Raised act)
    (hunrefused : Action.Triple (· = f.arena) act (fun _ _ => True) fun fault _ => fault.kind? = none) :
    Finishes (· = f) (onArena act) := by
  refine Action.Triple.focus (S := fun _ => f.arena.Raised)
    (F := fun fault a => f.arena.Raised a ∧ fault.kind? = none) ?_ ?_ ?_
  · rintro f rfl
    have hfrom : Action.Triple (· = f.arena) act (fun _ => f.arena.Raised) fun _ => f.arena.Raised :=
      hraised.weaken (fun _ h => h ▸ .refl _) (fun _ _ h => h) fun _ _ h => h
    exact (hfrom.and hunrefused).weaken (fun _ h => h) (fun _ _ h => h.1) fun _ _ h => h
  · rintro _ rfl _ a ha
    exact hf.withArena ha
  · rintro _ rfl _ a ha
    exact ⟨hf.withArena ha.1, ha.2⟩

theorem safe_solve (hs : s.state.WellFormed) (stream : String) : SafeFrom s (solve stream) := by
  refine Action.wp.bind_current (SafeFrom.bind_lift hs (notCyclic_resolve _ _ _) fun i _ => ?_)
  refine SafeFrom.of_finishes (.bind (R := fun _ => WellFormed) (finishes_onArena hs ?_ ?_) fun changes => ?_)
  · exact (Arena.raised_closedUnderRaise _).keeps_solve i _
  · exact (Arena.solve_unrefused i _).weaken (fun _ h => h ▸ hs.arena.bindsEarlier) (fun _ _ _ => trivial)
      fun _ _ h => h
  · refine Action.Triple.mapM fun change _ => Action.Triple.fix fun f hf => ?_
    refine .bind_lift (fun fault hfault _ h => ?_) fun name _ => .pure fun _ h => h ▸ hf
    exact ⟨h ▸ hf, unrefused_streamName s.state change.stream fault hfault⟩

theorem safe_tick (hs : s.state.WellFormed) (ticks : Value) : SafeFrom s (tick ticks) := by
  refine SafeFrom.bind_lift hs (notCyclic_requireInt _ _ _ _) fun n _ => Action.wp.bind_current ?_
  refine SafeFrom.of_finishes (finishes_onArena hs ((Arena.raised_closedUnderTime _ _).keeps_tick n _) ?_)
  exact (Arena.tick_unrefused n _ _).weaken (fun _ h => h ▸ hs.arena.bindsEarlier) (fun _ _ h => h)
    fun _ _ h => h

theorem safe_call (hs : s.state.WellFormed) (stream method : String) (args : List Value) :
    SafeFrom s (call stream method args) := by
  refine Action.wp.ite (fun _ => ?buffer) fun _ => Action.wp.ite (fun _ => ?solve) fun _ =>
    Action.wp.ite (fun _ => ?log) fun _ => ?other
  case buffer =>
    split
    · exact (safe_setBuffer hs _ _ _).map _
    · exact SafeFrom.lift hs (notCyclic_fail nofun)
  case solve =>
    exact .ite (fun _ => (safe_solve hs stream).map _) fun _ => SafeFrom.lift hs (notCyclic_fail nofun)
  case log =>
    split
    · exact Action.wp.bind_current (SafeFrom.bind_lift hs (hs.notCyclic_report _ _) fun _ _ => .pure hs)
    · exact SafeFrom.lift hs (notCyclic_fail nofun)
  case other => exact SafeFrom.lift hs (notCyclic_fail nofun)

/-- Every call may fail: it leaves a well-formed factory, and no trace if it is refused. -/
theorem safe_act (call : Call) (hs : s.state.WellFormed) : SafeFrom s call.act := by
  cases call with
  | registerProduct name module => exact (safe_registerProduct hs name module).map _
  | registerRecipe name inputs outputs period =>
    exact (safe_registerRecipe hs name inputs outputs period).map _
  | registerStream name definition => exact (safe_registerStream hs name definition).map _
  | setBuffer stream product capacity => exact (safe_setBuffer hs stream product capacity).map _
  | solve stream => exact (safe_solve hs stream).map _
  | tick ticks => exact (safe_tick hs ticks).map _
  | log stream products =>
    exact Action.wp.bind_current (SafeFrom.bind_lift hs (hs.notCyclic_report _ _) fun _ _ => .pure hs)
  | method stream name args => exact (safe_call hs stream name args).map _
  | efficiency stream =>
    exact Action.wp.bind_current (SafeFrom.bind_lift hs (hs.notCyclic_efficiency _) fun _ _ => .pure hs)
  | rateOf stream product =>
    exact Action.wp.bind_current (SafeFrom.bind_lift hs (hs.notCyclic_rateOf _ _) fun _ _ => .pure hs)
  | setOrder order => exact hs.withConfig _

/-! ## Runs -/

/-- The computation was stopped by a refusal. -/
def isRefusal {ε : Type} : Except Fault ε → Bool
  | .error (.refused _) => true
  | _ => false

/-- The calls of a run, each with what it answered. -/
def transcript : List Call → Logged Factory → List (Call × Except Fault Reply)
  | [], _ => []
  | call :: calls, s => (call, call.act.outcome s) :: transcript calls (call.act.after s)

theorem wellFormed_after (hs : s.state.WellFormed) (call : Call) : (call.act.after s).state.WellFormed := by
  have hsafe := safe_act call hs
  unfold SafeFrom Action.wp at hsafe
  unfold Action.after
  revert hsafe
  cases call.act s with
  | ok reply t => exact id
  | error fault t => exact Stopped.wellFormed

theorem wellFormed_run (hs : s.state.WellFormed) (calls : List Call) :
    (run calls s).state.WellFormed := by
  induction calls generalizing s with
  | nil => exact hs
  | cons call calls ih => exact ih (wellFormed_after hs call)

theorem stopped_of_eq_error (hs : s.state.WellFormed) {call : Call} {fault : Fault} {t : Logged Factory}
    (h : call.act s = .error fault t) : Stopped s fault t := by
  have hsafe := safe_act call hs
  unfold SafeFrom Action.wp at hsafe
  rwa [h] at hsafe

theorem after_eq_self (hs : s.state.WellFormed) {call : Call} (h : isRefusal (call.act.outcome s) = true) :
    call.act.after s = s := by
  unfold Action.outcome at h
  unfold Action.after
  cases hact : call.act s with
  | ok reply t =>
    rw [hact] at h
    cases h
  | error fault t =>
    rw [hact] at h
    cases fault with
    | refused r => exact (stopped_of_eq_error hs hact).unchanged r rfl
    | _ => cases h

/-- Making only the calls that were not refused leaves the same and answers the same. -/
theorem run_filter_transcript (hs : s.state.WellFormed) (calls : List Call) :
    let kept := (transcript calls s).filter fun entry => !isRefusal entry.2
    run (kept.map Prod.fst) s = run calls s ∧ transcript (kept.map Prod.fst) s = kept := by
  induction calls generalizing s with
  | nil => exact ⟨rfl, rfl⟩
  | cons call calls ih =>
    rw [transcript, List.filter_cons]
    split
    next hkept =>
      obtain ⟨hrun, htranscript⟩ := ih (wellFormed_after hs call)
      exact ⟨hrun, congrArg (List.cons _) htranscript⟩
    next hrefused =>
      have hafter : call.act.after s = s := after_eq_self hs (by simpa using hrefused)
      rw [hafter]
      obtain ⟨hrun, htranscript⟩ := ih hs
      exact ⟨by rw [hrun, run, run, List.foldl_cons, hafter], htranscript⟩

/-- Whatever calls are made to a new factory, it is well formed after them: in particular no two names
lead to one stream, and no call is refused for a cycle. -/
theorem run_wellFormed (config : Config) (least : Level) (calls : List Call) :
    let s := run calls { state := empty config, least }
    s.state.WellFormed ∧
      (∀ name name' i, s.state.streams.get? name = some i → s.state.streams.get? name' = some i →
        name = name') ∧
      ∀ (call : Call) fault t, call.act s = .error fault t → fault.kind? ≠ some .cycle := by
  have hs := wellFormed_run (s := { state := empty config, least }) (wellFormed_empty config) calls
  exact ⟨hs, fun _ _ _ => hs.names_distinct, fun _ _ _ h => (stopped_of_eq_error hs h).notCyclic⟩

/-- A call that is refused leaves the factory and the log as they were, whatever calls were made before
it. So a run of the calls that were not refused ends in the same factory, with the same answers. -/
theorem run_without_refused (config : Config) (least : Level) (calls : List Call) :
    let start : Logged Factory := { state := empty config, least }
    let kept := (transcript calls start).filter fun entry => !isRefusal entry.2
    (∀ (call : Call) r t, call.act (run calls start) = .error (.refused r) t → t = run calls start) ∧
      run (kept.map Prod.fst) start = run calls start ∧
      transcript (kept.map Prod.fst) start = kept := by
  have hstart : (empty config).WellFormed := wellFormed_empty config
  refine ⟨fun call r t h => ?_, run_filter_transcript hstart calls⟩
  exact (stopped_of_eq_error (wellFormed_run hstart calls) h).unchanged r rfl

end Factory

end Conveyor
