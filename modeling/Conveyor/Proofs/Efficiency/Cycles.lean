-- SUMMARY: A query or balancing is refused for a cycle just where streams that feed each other can be reached.
import Conveyor.Proofs.Acyclic
import Conveyor.Proofs.Rate.Amount

/-!
# Circles of streams

A binding matters to efficiencies if it is live: the supplier yields something that the stream consumes.
A query that answers has asked every stream along live links, so it has met no circle of them. It remembers
only streams of which it knows this, and a stream that it meets again on its own path stops it. Balancing
asks for the efficiency of its target first, and then goes along live links only, so it is refused for a
circle before it has changed anything or not at all.
-/

namespace Conveyor

namespace Arena

variable {a : Arena} {i : Nat} {s : Stream} {p : Product}

/-! ## Live links -/

/-- Stream `u` is bound to a slot of stream `j` and yields something that stream `j` consumes, whatever
the slot is for. -/
def Live (a : Arena) (j u : Nat) : Prop :=
  ∃ s, a.stream? j = some s ∧ u ∈ s.suppliers ∧
    ∃ t, a.stream? u = some t ∧ ∃ p, 1 ≤ t.recipe.yieldOf p ∧ 1 ≤ s.recipe.requiredOf p

/-- Live links lead from stream `i` into a circle of them. -/
def MeetsCircle (a : Arena) (i : Nat) : Prop :=
  ∃ j, Relation.ReflTransGen a.Live i j ∧ Relation.TransGen a.Live j j

theorem MeetsCircle.of_live {u : Nat} (hu : a.Live i u) (h : a.MeetsCircle u) : a.MeetsCircle i := by
  obtain ⟨j, huj, hj⟩ := h
  exact ⟨j, .head hu huj, hj⟩

/-- A circle that can be reached can be reached by some first link. -/
theorem MeetsCircle.exists_live (h : a.MeetsCircle i) : ∃ u, a.Live i u ∧ a.MeetsCircle u := by
  obtain ⟨j, hij, hj⟩ := h
  rcases hij.cases_head with rfl | ⟨u, hu, huj⟩
  · obtain ⟨u, hu, huj⟩ := Relation.TransGen.head'_iff.1 hj
    exact ⟨u, hu, i, huj, hj⟩
  · exact ⟨u, hu, j, huj, hj⟩

theorem not_meetsCircle_of_isLeaf (hs : a.stream? i = some s) (hleaf : s.isLeaf = true) :
    ¬ a.MeetsCircle i := by
  intro h
  obtain ⟨_, ⟨t, ht, hu, _⟩, _⟩ := h.exists_live
  obtain rfl := Option.some.inj (hs.symm.trans ht)
  rw [Stream.suppliers, List.isEmpty_iff.1 hleaf] at hu
  cases hu

end Arena

/-! ## Streams that run -/

/-- The recipe lists positive amounts and completes some cycles, and some copy runs. -/
structure Stream.Active (s : Stream) : Prop where
  positive : s.recipe.Positive
  rate : s.recipe.rate.isZero = false
  copies : 1 ≤ s.mult

instance (s : Stream) : Decidable s.Active :=
  decidable_of_iff (_ ∧ _ ∧ _) ⟨fun h => ⟨h.1, h.2.1, h.2.2⟩, fun h => ⟨h.positive, h.rate, h.copies⟩⟩

/-- All streams run. -/
def Arena.Active (a : Arena) : Prop := ∀ s ∈ a.streams, s.Active

instance (a : Arena) : Decidable a.Active :=
  inferInstanceAs (Decidable (∀ s ∈ a.streams, s.Active))

theorem Arena.Active.stream {a : Arena} (ha : a.Active) {i : Nat} {s : Stream}
    (hs : a.stream? i = some s) : s.Active :=
  ha s (List.mem_of_getElem? hs)

namespace Arena

variable {a : Arena} {i : Nat} {s : Stream} {p : Product}

/-! ## What a query that answers has found out -/

/-- From a memory with `P` a query that answers has found out `R`, and `P` holds of its memory then. -/
def Finds {α : Type} (P : List (Nat × Float) → Prop) (query : Query α) (R : Prop) : Prop :=
  ∀ cache answer cache', P cache → query.run cache = .ok (answer, cache') → R ∧ P cache'

namespace Finds

variable {α β : Type} {P : List (Nat × Float) → Prop} {R : Prop}

theorem pure (v : α) (h : R) : Finds P (pure v) R := by
  rintro cache _ _ hcache ⟨⟩
  exact ⟨h, hcache⟩

theorem lift (x : Except Fault α) (h : R) : Finds P (liftM x) R := by
  intro cache answer cache' hcache hrun
  cases x with
  | ok v =>
    cases hrun
    exact ⟨h, hcache⟩
  | error f => cases hrun

theorem bind {S : Prop} {query : Query α} {k : α → Query β} (h : Finds P query S)
    (hk : S → ∀ v, Finds P (k v) R) : Finds P (query >>= k) R := by
  intro cache answer cache' hcache hrun
  rw [StateT.run_bind] at hrun
  obtain ⟨⟨v, cache''⟩, hquery, hrun⟩ := Result.bind_eq_ok.1 hrun
  obtain ⟨hS, hcache''⟩ := h cache v cache'' hcache hquery
  exact hk hS v cache'' answer cache' hcache'' hrun

theorem bind_lift {x : Except Fault α} {k : α → Query β} (hk : ∀ v, x = .ok v → Finds P (k v) R) :
    Finds P (liftM x >>= k) R := by
  cases x with
  | ok v => exact hk v rfl
  | error f => exact fun _ _ _ _ hrun => by cases hrun

theorem imp {S : Prop} {query : Query α} (h : Finds P query S) (hS : S → R) : Finds P query R := by
  intro cache answer cache' hcache hrun
  obtain ⟨hs, hcache'⟩ := h cache answer cache' hcache hrun
  exact ⟨hS hs, hcache'⟩

theorem bind_get {k : List (Nat × Float) → Query α} (hk : ∀ cache, P cache → Finds P (k cache) R) :
    Finds P (get >>= k) R :=
  fun cache answer cache' hcache => hk cache hcache cache answer cache' hcache

theorem fail (f : Fault) : Finds P (liftM (.error f : Except Fault α)) R :=
  fun _ _ _ _ hrun => by cases hrun

theorem dite {c : Prop} [Decidable c] {q : c → Query α} {r : ¬ c → Query α} (ht : ∀ h, Finds P (q h) R)
    (hf : ∀ h, Finds P (r h) R) : Finds P (if h : c then q h else r h) R := by
  split
  · exact ht _
  · exact hf _

theorem foldlM {S : α → Prop} {f : β → α → Query β} {xs : List α}
    (h : ∀ b, ∀ x ∈ xs, Finds P (f b x) (S x)) (b : β) : Finds P (xs.foldlM f b) (∀ x ∈ xs, S x) := by
  induction xs generalizing b with
  | nil => exact pure b fun _ hx => absurd hx List.not_mem_nil
  | cons x xs ih =>
    rw [List.foldlM_cons]
    refine (h b x List.mem_cons_self).bind fun hx c => ?_
    exact (ih (fun b y hy => h b y (List.mem_cons_of_mem _ hy)) c).imp fun hxs =>
      List.forall_mem_cons.2 ⟨hx, hxs⟩

theorem mapM {S : α → Prop} {f : α → Query β} {xs : List α} (h : ∀ x ∈ xs, Finds P (f x) (S x)) :
    Finds P (xs.mapM f) (∀ x ∈ xs, S x) := by
  induction xs with
  | nil => exact pure [] fun _ hx => absurd hx List.not_mem_nil
  | cons x xs ih =>
    rw [List.mapM_cons]
    refine (h x List.mem_cons_self).bind fun hx y => ?_
    refine (ih fun z hz => h z (List.mem_cons_of_mem _ hz)).bind fun hxs ys => ?_
    exact pure (y :: ys) (List.forall_mem_cons.2 ⟨hx, hxs⟩)

end Finds

section Formulas

variable {P : List (Nat × Float) → Prop} {R : Nat → Prop} {f : Nat → Query Float} {u : Nat}

theorem finds_realizedBy (ha : a.Active) (hf : Finds P (f u) (R u)) :
    Finds P (realizedBy f a u p) (∀ t, a.stream? u = some t → 1 ≤ t.recipe.yieldOf p → R u) := by
  refine Finds.bind_lift fun t ht => Finds.bind_lift fun outflow houtflow => ?_
  cases hzero : outflow.isZero with
  | true =>
    refine Finds.pure none fun t' ht' hyield => ?_
    obtain rfl := Option.some.inj ((stream_eq_ok ht).symm.trans ht')
    obtain ⟨hpos, hrate, _⟩ := ha.stream ht'
    have hsome := Recipe.isZero_flowOf hrate hpos.outputs (Recipe.mem_outputs_of_yieldOf hyield) houtflow
    rw [hzero] at hsome
    cases hsome
  | false =>
    refine hf.bind fun hu e => Finds.bind_lift fun stretched _ => Finds.bind_lift fun total _ => ?_
    exact Finds.pure (some total) fun _ _ _ => hu

theorem finds_suppliedBy (ha : a.Active) (hs : a.stream? i = some s)
    (hf : ∀ u, Finds P (f u) (R u)) : Finds P (suppliedBy f a i p)
      (∀ u ∈ s.suppliers, ∀ t, a.stream? u = some t → 1 ≤ t.recipe.yieldOf p → R u) := by
  refine Finds.bind_lift fun s' hs' => ?_
  obtain rfl := Option.some.inj (hs.symm.trans (stream_eq_ok hs'))
  refine Finds.foldlM (fun total u _ => (finds_realizedBy ha (hf u)).bind fun hu realized => ?_) Rate.zero
  cases realized with
  | none => exact Finds.pure total hu
  | some rate => exact Finds.lift _ hu

theorem finds_efficiencyBy (ha : a.Active) (hs : a.stream? i = some s)
    (hf : ∀ u, Finds P (f u) (R u)) : Finds P (efficiencyBy f a i s) (∀ u, a.Live i u → R u) := by
  obtain ⟨hpos, hrate, hcopies⟩ := ha.stream hs
  have hratios : Finds P (s.recipe.inputProducts.mapM (ratioBy f a i s)) (∀ p ∈ s.recipe.inputProducts,
      ∀ u ∈ s.suppliers, ∀ t, a.stream? u = some t → 1 ≤ t.recipe.yieldOf p → R u) := by
    refine Finds.mapM fun p hp => Finds.bind_lift fun inflow hinflow => ?_
    refine Finds.bind_lift fun optimal hoptimal => ?_
    have hsome := Recipe.isZero_flowOf hrate hpos.inputs (Recipe.mem_inputProducts.1 hp) hinflow
    rw [Rate.isZero_times hsome hcopies hoptimal]
    refine (finds_suppliedBy ha hs hf).bind fun hsuppliers supplied => ?_
    exact Finds.bind_lift fun ratio _ => Finds.pure (some ratio) hsuppliers
  refine hratios.bind fun hproducts ratios => Finds.pure _ ?_
  rintro u ⟨s', hs', hu, t, ht, p, hyield, hrequired⟩
  obtain rfl := Option.some.inj (hs.symm.trans hs')
  exact hproducts p (Recipe.mem_inputProducts_of_requiredOf hrequired) u hu t ht hyield

end Formulas

/-- What is remembered are streams from which no circle can be reached. -/
def Cleared (a : Arena) (cache : List (Nat × Float)) : Prop :=
  ∀ i e, cache.lookup i = some e → ¬ a.MeetsCircle i

theorem Finds.remember {query : Query Float} (h : Finds a.Cleared query (¬ a.MeetsCircle i)) :
    Finds a.Cleared (do
      let e ← query
      set ((i, e) :: (← get))
      return e) (¬ a.MeetsCircle i) := by
  refine h.bind fun hi e => ?_
  rintro cache _ _ hcache ⟨⟩
  refine ⟨hi, fun j e' hlookup => ?_⟩
  rw [List.lookup_cons] at hlookup
  split at hlookup
  next hj => exact eq_of_beq hj ▸ hi
  · exact hcache j e' hlookup

/-- A query that settles an efficiency has met no circle, by whatever path it came. -/
theorem finds_settledEfficiency (ha : a.Active) (path : List Nat) (i : Nat) :
    Finds a.Cleared (settledEfficiency a path i) (¬ a.MeetsCircle i) := by
  induction hr : Path.remaining a.size path using Nat.strong_induction_on generalizing path i with
  | _ r ih =>
  subst hr
  rw [settledEfficiency]
  refine Finds.bind_get fun cache hcache => ?_
  cases hlookup : cache.lookup i with
  | some e => exact Finds.pure e (hcache i e hlookup)
  | none =>
    refine Finds.dite (fun _ => Finds.fail _) fun hnew => Finds.dite (fun hlt => ?_) fun _ => Finds.fail _
    have hs : a.stream? i = some a.streams[i] := List.getElem?_eq_getElem hlt
    cases hleaf : a.streams[i].isLeaf with
    | true =>
      simp only [hleaf]
      exact Finds.pure 1.0 (not_meetsCircle_of_isLeaf hs hleaf)
    | false =>
      simp only [hleaf]
      have hasked := finds_efficiencyBy (P := a.Cleared) ha hs fun u =>
        ih _ (Path.remaining_cons_lt hlt hnew) (i :: path) u rfl
      refine Finds.remember (hasked.imp fun hlive hmeets => ?_)
      obtain ⟨u, hu, hmeetsU⟩ := hmeets.exists_live
      exact hlive u hu hmeetsU

/-! ## Links that are asked are live -/

theorem Makes.exists_yield (ha : a.Active) {u : Nat} (h : a.Makes u p) :
    ∃ t, a.stream? u = some t ∧ 1 ≤ t.recipe.yieldOf p := by
  obtain ⟨t, ht, outflow, houtflow, hsome⟩ := h
  refine ⟨t, ht, Recipe.yieldOf_pos (ha.stream ht).positive ?_⟩
  by_contra hp
  obtain rfl := Except.ok.inj ((Recipe.flowOf_of_not_mem hp).symm.trans houtflow)
  cases hsome

theorem Asks.live (ha : a.Active) {u : Nat} (h : a.Asks i u) : a.Live i u := by
  obtain ⟨s, hs, p, hp, _, ⟨s', hs', hu⟩, hmakes⟩ := h
  obtain rfl := Option.some.inj (hs.symm.trans hs')
  obtain ⟨t, ht, hyield⟩ := hmakes.exists_yield ha
  exact ⟨s, hs, hu, t, ht, p, hyield, Recipe.requiredOf_pos (ha.stream hs).positive hp⟩

theorem acyclicFrom_of_not_meetsCircle (ha : a.Active) (h : ¬ a.MeetsCircle i) : a.AcyclicFrom i := by
  intro j hij hj
  have hlive (v w : Nat) (hvw : a.Asks v w) : a.Live v w := hvw.live ha
  exact h ⟨j, .mono hlive _ _ hij, .mono hlive _ _ hj⟩

/-! ## Queries -/

theorem efficiency_ne_ok (ha : a.Active) (h : a.MeetsCircle i) (e : Float) : a.efficiency i ≠ .ok e := by
  intro he
  obtain ⟨⟨e', cache⟩, hrun, _⟩ := Result.bind_eq_ok.1 he
  exact (finds_settledEfficiency ha [] i [] e' cache (fun _ _ hnone => by cases hnone) hrun).1 h

theorem rateOf_of_not_mem (hs : a.stream? i = some s) (hp : p ∉ s.recipe.outputs.map Part.product) :
    a.rateOf i p = .ok none := by
  rw [rateOf_eq]
  refine Result.bind_eq_ok.2 ⟨s, stream_of_eq_some hs, ?_⟩
  exact Result.bind_eq_ok.2 ⟨Rate.zero, Recipe.flowOf_of_not_mem hp, rfl⟩

/-- A stream that gives any of a product gives it at its efficiency. -/
theorem rateOf_of_makes (hs : a.stream? i = some s) {outflow : Rate}
    (houtflow : s.recipe.outflowOf p = .ok outflow) (hsome : outflow.isZero = false) :
    a.rateOf i p = do
      let stretched ← outflow.stretch (← a.efficiency i)
      let total ← stretched.times s.mult
      return some total := by
  rw [rateOf_eq, realizedBy, stream_of_eq_some hs]
  change (s.recipe.outflowOf p >>= _) = _
  rw [houtflow]
  change (if outflow.isZero then _ else _) = _
  rw [hsome]
  rfl

theorem rateOf_eq_error_iff (hs : a.stream? i = some s) {outflow : Rate}
    (houtflow : s.recipe.outflowOf p = .ok outflow) (hsome : outflow.isZero = false) {f : Fault}
    (hf : f.kind? ≠ none) : a.rateOf i p = .error f ↔ a.efficiency i = .error f := by
  rw [rateOf_of_makes hs houtflow hsome]
  cases he : a.efficiency i with
  | error g =>
    constructor <;> rintro ⟨⟩ <;> rfl
  | ok e =>
    have hfigures : Unrefused (do
        let stretched ← outflow.stretch e
        let total ← stretched.times s.mult
        return some total) :=
      (Unrefused.stretch _ _).bind fun _ _ => (Unrefused.times _ _).bind fun _ _ => Faults.ok _
    exact ⟨fun h => absurd (hfigures f h) hf, nofun⟩

/-- Where all streams run, a query for an efficiency does not answer if a circle of live links can be
reached from the stream, and is not refused for a cycle if none can. The rate of a product asks for the
efficiency if and only if the stream yields the product, and is refused for a cycle just when that is. -/
theorem queries_detect_circles (ha : a.Active) (hs : a.stream? i = some s) :
    (a.MeetsCircle i → ∀ e, a.efficiency i ≠ .ok e) ∧
    (¬ a.MeetsCircle i → NotCyclic (a.efficiency i)) ∧
    ∀ p, (s.recipe.yieldOf p = 0 → a.rateOf i p = .ok none) ∧
      (1 ≤ s.recipe.yieldOf p → s.recipe.rate.ticks.same s.recipe.rate.ticks = true →
        ∀ f, f.kind? = some .cycle → (a.rateOf i p = .error f ↔ a.efficiency i = .error f)) := by
  have hpos := (ha.stream hs).positive
  refine ⟨efficiency_ne_ok ha, fun h => ?_, fun p => ⟨fun hyield => ?_, fun hyield hticks f hf => ?_⟩⟩
  · exact (efficiency_unrefused (acyclicFrom_of_not_meetsCircle ha h)).notCyclic
  · refine rateOf_of_not_mem hs fun hp => ?_
    have := Recipe.yieldOf_pos hpos hp
    omega
  · have hp := Recipe.mem_outputs_of_yieldOf hyield
    obtain ⟨outflow, houtflow⟩ := Recipe.exists_flowOf hticks hpos.outputs p
    have hsome := Recipe.isZero_flowOf (ha.stream hs).rate hpos.outputs hp houtflow
    exact rateOf_eq_error_iff hs houtflow hsome (by simp [hf])

/-- Two streams that feed each other, a third one that draws on them, and a fourth one that is bound to
itself but for what it does not make. -/
def ring : Arena :=
  ⟨[Stream.fresh (Recipe.every 1 Int.one_pos [⟨⟨0, 0⟩, 1⟩] [⟨⟨1, 0⟩, 1⟩]) [⟨⟨0, 0⟩, 1⟩] 1 8,
    Stream.fresh (Recipe.every 1 Int.one_pos [⟨⟨1, 0⟩, 1⟩] [⟨⟨0, 0⟩, 1⟩]) [⟨⟨1, 0⟩, 0⟩] 1 8,
    Stream.fresh (Recipe.every 1 Int.one_pos [⟨⟨0, 0⟩, 1⟩] [⟨⟨2, 0⟩, 1⟩]) [⟨⟨0, 0⟩, 1⟩] 1 8,
    Stream.fresh (Recipe.every 1 Int.one_pos [⟨⟨0, 0⟩, 1⟩] [⟨⟨2, 0⟩, 1⟩]) [⟨⟨0, 0⟩, 3⟩] 1 8]⟩

/-- The third stream has no efficiency, because of the first two, but the fourth one has. -/
theorem queries_detect_circles_ring :
    ring.MeetsCircle 2 ∧ (∀ e, ring.efficiency 2 ≠ .ok e) ∧
      ¬ ring.MeetsCircle 3 ∧ NotCyclic (ring.efficiency 3) := by
  have hactive : ring.Active := by decide
  have hfirst : ring.Live 0 1 := ⟨_, rfl, by decide, _, rfl, ⟨0, 0⟩, by decide, by decide⟩
  have hsecond : ring.Live 1 0 := ⟨_, rfl, by decide, _, rfl, ⟨1, 0⟩, by decide, by decide⟩
  have hthird : ring.Live 2 1 := ⟨_, rfl, by decide, _, rfl, ⟨0, 0⟩, by decide, by decide⟩
  have hmeets : ring.MeetsCircle 2 := ⟨1, .single hthird, .tail (.single hsecond) hfirst⟩
  have hapart : ¬ ring.MeetsCircle 3 := by
    intro h
    obtain ⟨u, ⟨s, hs, hu, t, ht, p, hyield, hrequired⟩, _⟩ := h.exists_live
    obtain rfl := Option.some.inj hs
    obtain rfl : u = 3 := List.mem_singleton.1 hu
    obtain rfl := Option.some.inj ht
    obtain rfl := List.mem_singleton.1 (Recipe.mem_outputs_of_yieldOf hyield)
    exact absurd hrequired (by decide)
  exact ⟨hmeets, (queries_detect_circles hactive rfl).1 hmeets, hapart,
    (queries_detect_circles hactive rfl).2.1 hapart⟩

/-- A stream that would consume what it yields but completes no cycles. -/
def idleLoop : Arena :=
  ⟨[Stream.fresh ⟨Rate.zero, [⟨⟨0, 0⟩, 1⟩], [⟨⟨0, 0⟩, 1⟩]⟩ [⟨⟨0, 0⟩, 0⟩] 1 8]⟩

theorem isPositive_nan : (Number.real (0.0 / 0.0)).IsPositive := by decide +kernel

/-- A base that is not a number, which no check of its sign refuses. -/
def baseless : Rate := ⟨1, .real (0.0 / 0.0), Int.one_nonneg, isPositive_nan⟩

/-- A stream that consumes what it yields, over a base that is not a number, and that yields two parts
of another product, each too large for a double. -/
def baselessLoop : Arena :=
  ⟨[Stream.fresh ⟨baseless, [⟨⟨0, 0⟩, 1⟩], [⟨⟨0, 0⟩, 1⟩, ⟨⟨1, 0⟩, (10 ^ 200) ^ 2⟩, ⟨⟨1, 0⟩, (10 ^ 200) ^ 2⟩]⟩
    [⟨⟨0, 0⟩, 0⟩] 1 8]⟩

/-- Positive amounts and multipliers are not enough. A circle of streams that complete no cycles is not
looked at, and a rate may break down before the efficiency is asked for. -/
theorem idleLoop_efficiency :
    ((∀ s ∈ idleLoop.streams, s.recipe.Positive ∧ 1 ≤ s.mult) ∧ idleLoop.MeetsCircle 0 ∧
      idleLoop.efficiency 0 = .ok 0.0) ∧
    (∀ s ∈ baselessLoop.streams, s.recipe.Positive ∧ 1 ≤ s.mult ∧ 1 ≤ s.recipe.yieldOf ⟨1, 0⟩) ∧
      (∃ f, baselessLoop.efficiency 0 = .error f ∧ f.kind? = some .cycle) ∧
      ∃ f, baselessLoop.rateOf 0 ⟨1, 0⟩ = .error f ∧ f.kind? ≠ some .cycle := by
  refine ⟨⟨by decide, ?_, ?_⟩, by decide, by decide +kernel, by decide +kernel⟩
  · exact ⟨0, .refl, .single ⟨_, rfl, by decide, _, rfl, ⟨0, 0⟩, by decide, by decide⟩⟩
  · rw [efficiency_of_some (s := idleLoop.streams[0]) rfl]
    rfl

/-! ## Balancing -/

/-- Every stream has one slot per part that it consumes. -/
def Slotted (a : Arena) : Prop :=
  ∀ s ∈ a.streams, s.inputs.map Slot.product = s.recipe.inputs.map Part.product

instance (a : Arena) : Decidable a.Slotted :=
  inferInstanceAs (Decidable (∀ s ∈ a.streams, _))

theorem Slotted.requiredOf_pos (h : a.Slotted) (ha : a.Active) (hs : a.stream? i = some s) {slot : Slot}
    (hslot : slot ∈ s.inputs) : 0 < s.recipe.requiredOf slot.product := by
  refine Recipe.requiredOf_pos (ha.stream hs).positive (Recipe.mem_inputProducts.2 ?_)
  rw [← h s (List.mem_of_getElem? hs)]
  exact List.mem_map_of_mem hslot

theorem MeetsCircle.mono {b : Arena} (h : ∀ j u, b.Live j u → a.Live j u) (hi : b.MeetsCircle i) :
    a.MeetsCircle i := by
  obtain ⟨j, hij, hj⟩ := hi
  exact ⟨j, .mono h _ _ hij, .mono h _ _ hj⟩

namespace Raised

variable {b : Arena}

theorem active (h : a.Raised b) (ha : a.Active) : b.Active := by
  intro t ht
  obtain ⟨j, hj⟩ := List.mem_iff_getElem?.1 ht
  obtain ⟨s, hs, hst⟩ := h.exists_stream hj
  obtain ⟨hpos, hrate, hcopies⟩ := ha.stream hs
  exact ⟨hst.recipe ▸ hpos, hst.recipe ▸ hrate, Int.le_trans hcopies hst.mult_le⟩

theorem live (h : a.Raised b) {u : Nat} (hu : b.Live i u) : a.Live i u := by
  obtain ⟨s', hs', hmem, t', ht', p, hyield, hrequired⟩ := hu
  obtain ⟨s, hs, hraised⟩ := h.exists_stream hs'
  obtain ⟨t, ht, hraised'⟩ := h.exists_stream ht'
  exact ⟨s, hs, hraised.suppliers ▸ hmem, t, ht, p, hraised'.recipe ▸ hyield, hraised.recipe ▸ hrequired⟩

end Raised

/-- Where all streams run and each part has its slot, balancing goes along live links. -/
theorem guided_of_active (ha : a.Active) (hslots : a.Slotted) :
    Balancing.Guided a.Live (fun i => ¬ a.MeetsCircle i) fun b => a.Raised b.arena where
  link b c hb hc i s' hs' slot hslot hmakes := by
    obtain ⟨s, hs, hraised⟩ := hb.exists_stream hs'
    obtain ⟨t', ht', hyield⟩ := hmakes.exists_yield (hc.active ha)
    obtain ⟨t, ht, hraised'⟩ := hc.exists_stream ht'
    rw [hraised.inputs] at hslot
    refine ⟨s, hs, List.mem_eraseDups.2 (List.mem_map_of_mem hslot), t, ht, slot.product, ?_, ?_⟩
    · exact hraised'.recipe ▸ hyield
    · exact hslots.requiredOf_pos ha hs hslot
  visits _ _ hi hu hmeets := hi (hmeets.of_live hu)
  acyclic i hi hcircle := hi ⟨i, .refl, hcircle⟩
  efficiency b hb i hi := by
    refine efficiency_unrefused (acyclicFrom_of_not_meetsCircle (hb.active ha) fun hmeets => hi ?_)
    exact hmeets.mono fun _ _ hu => hb.live hu
  raise _ hb _ _ _ _ hs hn hscale := hb.trans (.replace hs (Stream.raised_of_scale hn hscale))

/-- Balancing starts with the efficiency of its target. -/
theorem solve_of_efficiency_error {ε : Float} {st : Logged Arena} {f : Fault}
    (h : st.state.efficiency i = .error f) : solve i ε st = .error f st := by
  let b : Logged Balancing := { st with state := ⟨st.state, []⟩ }
  have hquery : Balancing.query (·.efficiency i) b = .error f b := by
    change ofExcept (st.state.efficiency i) b = _
    rw [h]
    rfl
  have hbalance : Balancing.balance ε st.state.size [] i b = .error f b := by
    rw [Balancing.balance, dif_neg List.not_mem_nil]
    exact Action.bind_of_error hquery
  refine Action.focus_of_error (t := b) ?_
  change (Balancing.balance ε st.state.size [] i >>= _) b = _
  exact Action.bind_of_error hbalance

/-- Where all streams run and each part has its slot, balancing is refused for a cycle just where the
efficiency of its target is, with the same refusal, and has changed nothing then. -/
theorem solve_refused_iff {ε : Float} {st : Logged Arena} (ha : st.state.Active)
    (hslots : st.state.Slotted) :
    (∀ f t, solve i ε st = .error f t → f.kind? = some .cycle →
      st.state.efficiency i = .error f ∧ t = st) ∧
    ∀ f, st.state.efficiency i = .error f → f.kind? = some .cycle → solve i ε st = .error f st := by
  refine ⟨fun f t hsolve hf => ?_, fun f hefficiency _ => solve_of_efficiency_error hefficiency⟩
  cases hefficiency : st.state.efficiency i with
  | error g =>
    rw [solve_of_efficiency_error hefficiency] at hsolve
    obtain ⟨rfl, rfl⟩ := EStateM.Result.error.inj hsolve
    exact ⟨rfl, rfl⟩
  | ok e =>
    have hmeets : ¬ st.state.MeetsCircle i := fun h => efficiency_ne_ok ha h e hefficiency
    have hgoes := solve_goes (guided_of_active ha hslots) hmeets ε st (Raised.refl _)
    rw [hsolve] at hgoes
    rw [hgoes] at hf
    cases hf

theorem solve_refused_iff_ring :
    ∃ f, f.kind? = some .cycle ∧ ring.efficiency 2 = .error f ∧
      solve 2 defaultEpsilon { state := ring } = .error f { state := ring } := by
  have hrefused : ∃ f, ring.efficiency 2 = .error f ∧ f.kind? = some .cycle := by decide +kernel
  obtain ⟨f, hf, hcycle⟩ := hrefused
  exact ⟨f, hcycle, hf, (solve_refused_iff (by decide) (by decide)).2 f hf hcycle⟩

/-- A stream that consumes what it yields, and another one that would draw on it but completes no cycles. -/
def idleTaker : Arena :=
  ⟨[Stream.fresh (Recipe.every 1 Int.one_pos [⟨⟨0, 0⟩, 1⟩] [⟨⟨0, 0⟩, 1⟩]) [⟨⟨0, 0⟩, 0⟩] 1 8,
    Stream.fresh ⟨Rate.zero, [⟨⟨0, 0⟩, 1⟩], []⟩ [⟨⟨0, 0⟩, 0⟩] 1 8]⟩

/-- A stream that completes no cycles has an efficiency, which does not depend on its suppliers, but to
balance it is refused for a cycle behind them. -/
theorem idleTaker_solve :
    (∀ s ∈ idleTaker.streams, s.recipe.Positive ∧ 1 ≤ s.mult) ∧ idleTaker.Slotted ∧
      idleTaker.efficiency 1 = .ok 0.0 ∧
      ∃ f, (solve 1).answer idleTaker = .error f ∧ f.kind? = some .cycle := by
  refine ⟨by decide, by decide, ?_, by decide +kernel⟩
  rw [efficiency_of_some (s := idleTaker.streams[1]) rfl]
  rfl

end Arena

end Conveyor
