-- SUMMARY: A query that remembers what it has settled answers what the formula alone gives.
import Conveyor.Proofs.Raises

/-!
# Efficiency as a formula

Where nothing depends on itself, the efficiencies that queries give fit the formula: each is what those
of the suppliers make of it. A query settles the same values, in whatever order it meets the streams,
because all that it remembers are answers of such queries. Where streams are bound to earlier streams
only, the formula determines every efficiency by itself, from those of smaller indices.
-/

namespace Conveyor

namespace Arena

/-! ## Links that are followed -/

/-- One copy of stream `u` gives some of the product. -/
def Makes (a : Arena) (u : Nat) (p : Product) : Prop :=
  ∃ s, a.stream? u = some s ∧ ∃ outflow, s.recipe.outflowOf p = .ok outflow ∧ outflow.isZero = false

/-- Stream `i` has some of the product from stream `u`. -/
def Draws (a : Arena) (i : Nat) (p : Product) (u : Nat) : Prop :=
  (∃ s, a.stream? i = some s ∧ u ∈ s.suppliers) ∧ a.Makes u p

/-- The efficiency of stream `i` depends on that of stream `u`: some product that `i` consumes comes
from there. -/
def Asks (a : Arena) (i u : Nat) : Prop :=
  ∃ s, a.stream? i = some s ∧ ∃ p ∈ s.recipe.inputProducts, (∃ inflow optimal,
    s.recipe.inflowOf p = .ok inflow ∧ inflow.times s.mult = .ok optimal ∧ optimal.isZero = false) ∧
    a.Draws i p u

/-- No stream that is asked on the way from stream `i` depends on itself. -/
def AcyclicFrom (a : Arena) (i : Nat) : Prop :=
  ∀ j, Relation.ReflTransGen a.Asks i j → ¬ Relation.TransGen a.Asks j j

theorem Draws.lt_size {a : Arena} {i u : Nat} {p : Product} (h : a.Draws i p u) : u < a.size := by
  obtain ⟨_, _, hs, _⟩ := h
  exact (List.getElem?_eq_some_iff.1 hs).1

theorem Asks.draws {a : Arena} {i u : Nat} (h : a.Asks i u) : ∃ p, a.Draws i p u := by
  obtain ⟨_, _, p, _, _, hdraws⟩ := h
  exact ⟨p, hdraws⟩

theorem Asks.supplies {a : Arena} {i u : Nat} (h : a.Asks i u) : a.Supplies u i := by
  obtain ⟨_, ⟨s, hs, hu⟩, _⟩ := h.draws
  exact supplies_of_mem hs hu

theorem Asks.mem_suppliers {a : Arena} {i u : Nat} {s : Stream} (h : a.Asks i u) (hs : a.stream? i = some s) :
    u ∈ s.suppliers := by
  obtain ⟨_, ⟨t, ht, hu⟩, _⟩ := h.draws
  obtain rfl := Option.some.inj (hs.symm.trans ht)
  exact hu

theorem Asks.lt_size {a : Arena} {i u : Nat} (h : a.Asks i u) : i < a.size := by
  obtain ⟨_, hs, _⟩ := h
  exact (List.getElem?_eq_some_iff.1 hs).1

theorem AcyclicFrom.of_asks {a : Arena} {i u : Nat} (h : a.AcyclicFrom i) (hu : a.Asks i u) :
    a.AcyclicFrom u :=
  fun j hj => h j (Relation.ReflTransGen.head hu hj)

/-- Links that are followed are bindings, so it is enough that no stream upstream supplies itself. -/
theorem acyclicFrom_of_upstream {a : Arena} {i : Nat}
    (h : ∀ j, Relation.ReflTransGen a.Supplies j i → ¬ a.Upstream j j) : a.AcyclicFrom i := by
  intro j hij hj
  have hsupplies (u v : Nat) (huv : a.Asks u v) : Function.swap a.Supplies u v := huv.supplies
  refine h j (Relation.reflTransGen_swap.1 (Relation.ReflTransGen.mono hsupplies _ _ hij)) ?_
  exact Relation.transGen_swap.1 (Relation.TransGen.mono hsupplies _ _ hj)

/-- All streams on the way to a stream depend on what it asks for. -/
theorem Asks.extends_path {a : Arena} {i u : Nat} {path : List Nat} (hu : a.Asks i u)
    (hpath : ∀ j ∈ path, Relation.TransGen a.Asks j i) :
    ∀ j ∈ i :: path, Relation.TransGen a.Asks j u :=
  List.forall_mem_cons.2 ⟨.single hu, fun j hj => .tail (hpath j hj) hu⟩

/-- What holds of a stream as soon as it holds of all that its efficiency depends on holds wherever
nothing depends on itself: no stream comes again on the way, so every way ends. -/
@[elab_as_elim]
theorem AcyclicFrom.induction {a : Arena} {motive : Nat → Prop} {i : Nat} (hi : a.AcyclicFrom i)
    (step : ∀ j, a.AcyclicFrom j → (∀ u, a.Asks j u → motive u) → motive j) : motive i := by
  suffices h : ∀ path i, (∀ j ∈ path, Relation.TransGen a.Asks j i) → a.AcyclicFrom i → motive i from
    h [] i (fun _ hj => absurd hj List.not_mem_nil) hi
  intro path
  induction hr : Path.remaining a.size path using Nat.strong_induction_on generalizing path with
  | _ r ih =>
  subst hr
  intro i hpath hi
  refine step i hi fun u hu => ?_
  have hnew : i ∉ path := fun hmem => hi i .refl (hpath i hmem)
  exact ih _ (Path.remaining_cons_lt hu.lt_size hnew) (i :: path) rfl u (hu.extends_path hpath)
    (hi.of_asks hu)

theorem BindsEarlier.acyclicFrom {a : Arena} (h : a.BindsEarlier) (i : Nat) : a.AcyclicFrom i :=
  acyclicFrom_of_upstream fun j _ => h.acyclic j

/-! ## Queries that agree with a result -/

/-- What is remembered are efficiencies of `good`. -/
def Settled (good : Nat → Except Fault Float) (cache : List (Nat × Float)) : Prop :=
  ∀ i e, cache.lookup i = some e → good i = .ok e

/-- Whatever it remembers of `good`, the query answers `x`, and remembers nothing else then. -/
def Agrees {α : Type} (good : Nat → Except Fault Float) (query : Query α) (x : Except Fault α) : Prop :=
  ∀ cache, Settled good cache →
    match query.run cache with
    | .ok (answer, cache') => x = .ok answer ∧ Settled good cache'
    | .error f => x = .error f

namespace Agrees

variable {α β : Type} {good : Nat → Except Fault Float}

theorem pure (v : α) : Agrees good (pure v) (Pure.pure v) :=
  fun _ hcache => ⟨rfl, hcache⟩

theorem lift (x : Except Fault α) : Agrees good (liftM x) x := by
  intro cache hcache
  cases x with
  | ok v => exact ⟨rfl, hcache⟩
  | error f => exact rfl

theorem bind {query : Query α} {x : Except Fault α} {k : α → Query β} {l : α → Except Fault β}
    (h : Agrees good query x) (hk : ∀ v, Agrees good (k v) (l v)) :
    Agrees good (query >>= k) (x >>= l) := by
  intro cache hcache
  have hquery := h cache hcache
  rw [StateT.run_bind]
  revert hquery
  cases query.run cache with
  | error f =>
    rintro rfl
    rfl
  | ok result =>
    obtain ⟨v, cache'⟩ := result
    rintro ⟨rfl, hcache'⟩
    exact hk v cache' hcache'

theorem bind_lift {x : Except Fault α} {k : α → Query β} {l : α → Except Fault β}
    (hk : ∀ v, x = .ok v → Agrees good (k v) (l v)) : Agrees good (liftM x >>= k) (x >>= l) := by
  cases x with
  | ok v => exact hk v rfl
  | error f => exact fun _ _ => rfl

theorem bind_get {k : List (Nat × Float) → Query α} {x : Except Fault α}
    (hk : ∀ cache, Settled good cache → Agrees good (k cache) x) : Agrees good (get >>= k) x :=
  fun cache hcache => hk cache hcache cache hcache

theorem dite {c : Prop} [Decidable c] {q : c → Query α} {r : ¬ c → Query α} {x : Except Fault α}
    (ht : ∀ h, Agrees good (q h) x) (hf : ∀ h, Agrees good (r h) x) :
    Agrees good (if h : c then q h else r h) x := by
  split
  · exact ht _
  · exact hf _

theorem foldlM {f : β → α → Query β} {g : β → α → Except Fault β} {xs : List α}
    (h : ∀ b, ∀ x ∈ xs, Agrees good (f b x) (g b x)) (b : β) :
    Agrees good (xs.foldlM f b) (xs.foldlM g b) := by
  induction xs generalizing b with
  | nil => exact pure b
  | cons x xs ih =>
    rw [List.foldlM_cons, List.foldlM_cons]
    exact (h b x List.mem_cons_self).bind fun c => ih (fun b y hy => h b y (List.mem_cons_of_mem _ hy)) c

theorem mapM {f : α → Query β} {g : α → Except Fault β} {xs : List α}
    (h : ∀ x ∈ xs, Agrees good (f x) (g x)) : Agrees good (xs.mapM f) (xs.mapM g) := by
  induction xs with
  | nil => exact pure []
  | cons x xs ih =>
    rw [List.mapM_cons, List.mapM_cons]
    exact (h x List.mem_cons_self).bind fun y =>
      (ih fun z hz => h z (List.mem_cons_of_mem _ hz)).bind fun ys => pure (y :: ys)

/-- A value of `good` may be remembered. -/
theorem remember {query : Query Float} {i : Nat} (h : Agrees good query (good i)) :
    Agrees good (do
      let e ← query
      set ((i, e) :: (← get))
      return e) (good i) := by
  intro cache hcache
  have hquery := h cache hcache
  simp only [StateT.run_bind]
  revert hquery
  cases query.run cache with
  | error f => exact id
  | ok result =>
    obtain ⟨e, cache'⟩ := result
    rintro ⟨he, hcache'⟩
    refine ⟨he, fun j e' hlookup => ?_⟩
    rw [List.lookup_cons] at hlookup
    split at hlookup
    next hj =>
      obtain rfl := Option.some.inj hlookup
      rw [eq_of_beq hj]
      exact he
    · exact hcache' j e' hlookup

/-- The answer of a query that starts with nothing remembered. -/
theorem run' {query : Query α} {x : Except Fault α} (h : Agrees good query x) : query.run' [] = x := by
  have hquery := h [] fun _ _ hnone => by cases hnone
  change Prod.fst <$> query.run [] = x
  revert hquery
  cases query.run [] with
  | error f => exact Eq.symm
  | ok result => exact fun hx => hx.1.symm

theorem unique {query : Query α} {x y : Except Fault α} (hx : Agrees good query x)
    (hy : Agrees good query y) : x = y :=
  hx.run'.symm.trans hy.run'

end Agrees

/-! ## Queries follow the formula -/

section Formulas

variable {a : Arena} {good : Nat → Except Fault Float} {f : Nat → Query Float}
  {g h : Nat → Except Fault Float} {i : Nat} {s : Stream} {p : Product}

theorem agrees_realizedBy (hfg : a.Makes i p → Agrees good (f i) (g i)) :
    Agrees good (realizedBy f a i p) (realizedBy g a i p) := by
  refine Agrees.bind_lift fun s hs => Agrees.bind_lift fun outflow houtflow => ?_
  cases hzero : outflow.isZero with
  | true => exact .pure none
  | false =>
    refine (hfg ⟨s, stream_eq_ok hs, outflow, houtflow, hzero⟩).bind fun e => ?_
    exact Agrees.bind_lift fun stretched _ => Agrees.bind_lift fun total _ => .pure (some total)

theorem agrees_suppliedBy (hfg : ∀ u, a.Draws i p u → Agrees good (f u) (g u)) :
    Agrees good (suppliedBy f a i p) (suppliedBy g a i p) := by
  refine Agrees.bind_lift fun s hs => Agrees.foldlM (fun total u hu => ?_) Rate.zero
  refine (agrees_realizedBy fun hmakes => hfg u ⟨⟨s, stream_eq_ok hs, hu⟩, hmakes⟩).bind fun realized => ?_
  cases realized with
  | none => exact .pure total
  | some rate => exact .lift _

theorem agrees_efficiencyBy (hs : a.stream? i = some s)
    (hfg : ∀ u, a.Asks i u → Agrees good (f u) (g u)) :
    Agrees good (efficiencyBy f a i s) (efficiencyBy g a i s) := by
  refine Agrees.bind (Agrees.mapM fun p hp => ?_) fun ratios => .pure _
  refine Agrees.bind_lift fun inflow hinflow => Agrees.bind_lift fun optimal hoptimal => ?_
  cases hzero : optimal.isZero with
  | true => exact .pure none
  | false =>
    refine (agrees_suppliedBy fun u hu => hfg u ?_).bind fun supplied => ?_
    · exact ⟨s, hs, p, hp, ⟨inflow, optimal, hinflow, hoptimal, hzero⟩, hu⟩
    · exact Agrees.bind_lift fun ratio _ => .pure (some ratio)

/-! Efficiencies that the formulas do not ask for do not matter to them. -/

theorem realizedBy_congr (hgh : a.Makes i p → g i = h i) : realizedBy g a i p = realizedBy h a i p := by
  have hg : Agrees g (realizedBy (fun u => liftM (g u)) a i p) (realizedBy g a i p) :=
    agrees_realizedBy fun _ => .lift _
  exact hg.unique (agrees_realizedBy fun hi => hgh hi ▸ .lift _)

theorem suppliedBy_congr (hgh : ∀ u, a.Draws i p u → g u = h u) :
    suppliedBy g a i p = suppliedBy h a i p := by
  have hg : Agrees g (suppliedBy (fun u => liftM (g u)) a i p) (suppliedBy g a i p) :=
    agrees_suppliedBy fun _ _ => .lift _
  exact hg.unique (agrees_suppliedBy fun u hu => hgh u hu ▸ .lift _)

theorem efficiencyBy_congr (hs : a.stream? i = some s) (hgh : ∀ u, a.Asks i u → g u = h u) :
    efficiencyBy g a i s = efficiencyBy h a i s := by
  have hg : Agrees g (efficiencyBy (fun u => liftM (g u)) a i s) (efficiencyBy g a i s) :=
    agrees_efficiencyBy hs fun _ _ => .lift _
  exact hg.unique (agrees_efficiencyBy hs fun u hu => hgh u hu ▸ .lift _)

end Formulas

section Queries

variable {a : Arena} {i : Nat} {s : Stream} {p : Product} {α β : Type} {cache : List (Nat × Float)}

theorem run'_bind_lift (x : Except Fault α) (k : α → Query β) :
    (liftM x >>= k).run' cache = x >>= fun v => (k v).run' cache := by
  cases x <;> rfl

theorem run'_bind (query : Query α) {k : α → Query β} {l : α → Except Fault β}
    (hk : ∀ v cache, (k v).run' cache = l v) : (query >>= k).run' cache = query.run' cache >>= l := by
  change Prod.fst <$> (query >>= k).run cache = Prod.fst <$> query.run cache >>= l
  rw [StateT.run_bind]
  cases query.run cache with
  | error f => rfl
  | ok result => exact hk result.1 result.2

theorem efficiency_of_none (hs : a.stream? i = none) : a.efficiency i = .error .noSuchIndex := by
  have hlt : ¬ i < a.size := Nat.not_lt.2 (List.getElem?_eq_none_iff.1 hs)
  rw [efficiency, settledEfficiency, dif_neg List.not_mem_nil, dif_neg hlt]
  rfl

/-- The query for one efficiency starts with nothing settled and nothing on its path. -/
theorem efficiency_of_some (hs : a.stream? i = some s) :
    a.efficiency i = if s.isLeaf then .ok 1.0
      else (efficiencyBy (settledEfficiency a [i]) a i s).run' [] := by
  obtain ⟨hlt, rfl⟩ := List.getElem?_eq_some_iff.1 hs
  rw [efficiency, settledEfficiency]
  simp only [show i < a.size from hlt, List.not_mem_nil, dite_false, dite_true]
  generalize efficiencyBy (settledEfficiency a [i]) a i a.streams[i] = query
  change StateT.run' (if a.streams[i].isLeaf then _ else query >>= _) [] = _
  split
  · rfl
  · exact (run'_bind (l := pure) query fun _ _ => rfl).trans (bind_pure _)

theorem efficiency_of_isLeaf (hs : a.stream? i = some s) (hleaf : s.isLeaf = true) :
    a.efficiency i = .ok 1.0 :=
  (efficiency_of_some hs).trans (if_pos hleaf)

/-- A query settles efficiencies that queries give, by whatever path it comes: the streams on the path
depend on the one that it comes to, which does not depend on itself. -/
theorem agrees_settledEfficiency (hi : a.AcyclicFrom i) : ∀ path,
    (∀ j ∈ path, Relation.TransGen a.Asks j i) →
    Agrees a.efficiency (settledEfficiency a path i) (a.efficiency i) := by
  refine AcyclicFrom.induction hi fun i hi ih path hpath => ?_
  rw [settledEfficiency]
  refine Agrees.bind_get fun cache hcache => ?_
  cases hlookup : cache.lookup i with
  | some e =>
    rw [hcache i e hlookup]
    exact .pure e
  | none =>
    refine Agrees.dite (fun hmem => absurd (hpath i hmem) (hi i .refl)) fun hmem => ?_
    refine Agrees.dite (fun hlt => ?_) fun hlt => ?_
    · have hs : a.stream? i = some a.streams[i] := List.getElem?_eq_getElem hlt
      cases hleaf : a.streams[i].isLeaf with
      | true =>
        rw [efficiency_of_isLeaf hs hleaf]
        simp only [hleaf]
        exact .pure 1.0
      | false =>
        -- This holds along any path: along the empty one it says what the efficiency is.
        have hasked (path : List Nat) (hpath : ∀ j ∈ path, Relation.TransGen a.Asks j i) :
            Agrees a.efficiency (efficiencyBy (settledEfficiency a (i :: path)) a i a.streams[i])
              (efficiencyBy a.efficiency a i a.streams[i]) :=
          agrees_efficiencyBy hs fun u hu => ih u hu (i :: path) (hu.extends_path hpath)
        simp only [hleaf]
        refine Agrees.remember ?_
        rw [efficiency_of_some hs, if_neg (ne_true_of_eq_false hleaf),
          (hasked [] fun _ hj => absurd hj List.not_mem_nil).run']
        exact hasked path hpath
    · rw [efficiency_of_none (List.getElem?_eq_none (Nat.not_lt.1 hlt))]
      exact .lift (.error .noSuchIndex)

/-- Where nothing depends on itself, the efficiencies that queries give fit together. -/
theorem efficiency_of_suppliers (hi : a.AcyclicFrom i) (hs : a.stream? i = some s)
    (hleaf : s.isLeaf = false) : a.efficiency i = efficiencyBy a.efficiency a i s := by
  rw [efficiency_of_some hs, if_neg (ne_true_of_eq_false hleaf)]
  have hquery : Agrees a.efficiency (efficiencyBy (settledEfficiency a [i]) a i s)
      (efficiencyBy a.efficiency a i s) := agrees_efficiencyBy hs fun u hu =>
    agrees_settledEfficiency (hi.of_asks hu) [i] fun _ hj => List.mem_singleton.1 hj ▸ .single hu
  exact hquery.run'

/-- A query for a rate asks for at most one efficiency, with nothing settled before. -/
theorem rateOf_eq : a.rateOf i p = realizedBy a.efficiency a i p := by
  refine (run'_bind_lift _ _).trans (bind_congr fun s => ?_)
  refine (run'_bind_lift _ _).trans (bind_congr fun outflow => ?_)
  cases outflow.isZero with
  | true => rfl
  | false =>
    refine run'_bind _ fun e cache => ?_
    refine (run'_bind_lift _ _).trans (bind_congr fun stretched => ?_)
    exact run'_bind_lift _ _

theorem suppliedRate_eq (hi : ∀ u, a.Draws i p u → a.AcyclicFrom u) :
    a.suppliedRate i p = suppliedBy a.efficiency a i p :=
  (agrees_suppliedBy fun u hu =>
    agrees_settledEfficiency (hi u hu) [] fun _ hj => absurd hj List.not_mem_nil).run'

end Queries

/-! ## The formula -/

/-- The efficiency of stream `i` by the formula, from the efficiencies of earlier streams. -/
def formula (a : Arena) (i : Nat) : Except Fault Float :=
  match a.stream? i with
  | none => .error .noSuchIndex
  | some s =>
    if s.isLeaf then .ok 1.0
    else efficiencyBy (fun u => if u < i then formula a u else .error .noSuchIndex) a i s
termination_by i

variable {a : Arena} {i : Nat}

theorem formula_of_isLeaf {s : Stream} (hs : a.stream? i = some s) (hleaf : s.isLeaf = true) :
    a.formula i = .ok 1.0 := by
  rw [formula, hs]
  exact if_pos hleaf

/-- A stream with bindings has the efficiency that its suppliers give it. -/
theorem formula_of_suppliers (ha : a.BindsEarlier) {s : Stream} (hs : a.stream? i = some s)
    (hleaf : s.isLeaf = false) : a.formula i = efficiencyBy a.formula a i s := by
  rw [formula, hs]
  simp only [hleaf]
  exact efficiencyBy_congr hs fun u hu => if_pos (ha.lt hu.supplies)

theorem efficiency_eq_formula (ha : a.BindsEarlier) (i : Nat) : a.efficiency i = a.formula i := by
  refine AcyclicFrom.induction (ha.acyclicFrom i) fun i hi ih => ?_
  cases hs : a.stream? i with
  | none => rw [efficiency_of_none hs, formula, hs]
  | some s =>
    cases hleaf : s.isLeaf with
    | true => rw [efficiency_of_isLeaf hs hleaf, formula_of_isLeaf hs hleaf]
    | false =>
      rw [efficiency_of_suppliers hi hs hleaf, formula_of_suppliers ha hs hleaf]
      exact efficiencyBy_congr hs ih

theorem rateOf_eq_formula (ha : a.BindsEarlier) (i : Nat) (p : Product) :
    a.rateOf i p = realizedBy a.formula a i p :=
  rateOf_eq.trans (realizedBy_congr fun _ => efficiency_eq_formula ha i)

end Arena

end Conveyor
