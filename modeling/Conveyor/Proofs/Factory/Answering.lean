-- SUMMARY: Where the figures of a factory are modest, every query of a registered stream has an answer, and so has balancing it.
import Conveyor.Proofs.Efficiency.Answering
import Conveyor.Proofs.Factory.Sustained

/-!
# Answers of a factory

Registration asks for positive figures only, however large. What queries and balancing do with them is
within the range of doubles as long as the figures are modest. Nothing else stops them: names lead to
streams that are there, and the products of their recipes have numbers and names.
-/

namespace Conveyor

/-! ## Products of recipes -/

/-- The products stay in the table when one more comes in. -/
theorem Recipe.Listed.insert {products : Table String Product} {r : Recipe} (h : r.Listed products)
    {name : String} (hname : products.get? name = none) (p : Product) : r.Listed (products.insert name p) := by
  intro part hpart
  obtain ⟨other, hother⟩ := h part hpart
  refine ⟨other, ?_⟩
  have hne : name ≠ other := by
    rintro rfl
    rw [hname] at hother
    cases hother
  rw [Table.get?_insert, if_neg hne, hother]

namespace Factory

variable {config : Config} {f : Factory} {F D K : Nat}

/-- Recipes, registered and in use, are about registered products; the tolerance is the configured one. -/
structure Listed (config : Config) (f : Factory) : Prop where
  recipes : ∀ name r, f.recipes.get? name = some r → r.Listed f.products
  streams : ∀ i s, f.arena.stream? i = some s → s.recipe.Listed f.products
  epsilon : f.config.epsilon = config.epsilon

theorem listed_empty (config : Config) : (empty config).Listed config := ⟨fun _ _ => nofun, fun _ _ => nofun, rfl⟩

theorem Listed.withArena (hf : f.Listed config) {arena : Arena} (h : f.arena.Raised arena) :
    Listed config { f with arena } where
  recipes := hf.recipes
  streams i t ht := by
    obtain ⟨s, hs, hst⟩ := h.exists_stream ht
    exact hst.recipe ▸ hf.streams i s hs
  epsilon := hf.epsilon

theorem listed_closedUnderCalls : ClosedUnderCalls (Listed config) where
  registerProduct name module := keeps_registerProduct name module fun f hf hnew _ _ p =>
    have hname := Table.contains_eq_false_iff.1 hnew
    ⟨fun other r hr => (hf.recipes other r hr).insert hname p, fun i s hs => (hf.streams i s hs).insert hname p,
      hf.epsilon⟩
  registerRecipe name inputs outputs period := by
    refine keeps_registerRecipe name inputs outputs period fun f hf recipe _ hrecipe => ⟨?_, hf.streams, hf.epsilon⟩
    intro other r hr
    rw [Table.get?_insert] at hr
    split at hr
    · exact Option.some.inj hr ▸ hrecipe
    · exact hf.recipes other r hr
  registerStream name definition := by
    refine keeps_registerStream name definition ?_ ?_ ?_
    · intro f hf recipeName recipe hrecipe slots mult label _ _
      refine ⟨hf.recipes, fun i s hs => ?_, hf.epsilon⟩
      rcases Arena.stream?_append.1 hs with hs | ⟨_, rfl⟩
      · exact hf.streams i s hs
      · exact hf.recipes recipeName recipe hrecipe
    · exact fun f g _ hg =>
        ⟨hg.recipes, fun i s hs => hg.streams i s (Arena.stream?_of_truncate hs).2, hg.epsilon⟩
    · exact fun _ hf _ => ⟨hf.recipes, hf.streams, hf.epsilon⟩
  setBuffer stream product capacity := by
    refine keeps_setBuffer stream product capacity fun f hf i s hs p b hb capacity _ => hf.withArena ?_
    exact .modify fun _ _ => ⟨rfl, rfl, Int.le_refl _⟩
  solve stream :=
    keeps_solve stream (fun f _ => .refl f.arena)
      (fun f _ i ε => (Arena.raised_closedUnderRaise f.arena).keeps_solve i ε) fun _ hf _ ha => hf.withArena ha
  tick ticks :=
    keeps_tick ticks (fun f _ => .refl f.arena)
      (fun f _ n => (Arena.raised_closedUnderTime f.arena _).keeps_tick n _) fun _ hf _ ha => hf.withArena ha
  setOrder _ hf _ := ⟨hf.recipes, hf.streams, hf.epsilon⟩

/-! ## Answers -/

/-- Figures and multipliers are up to `F`, no stream has more than `K` suppliers or more than `D` links
behind it, and there are no more products than numbers that are written. -/
structure Modest (F D K : Nat) (f : Factory) : Prop where
  sized : ∀ s ∈ f.arena.streams, s.Sized F K
  mult_le : ∀ s ∈ f.arena.streams, s.mult ≤ F
  depth_le : ∀ i s, f.arena.stream? i = some s → f.arena.depth i ≤ D
  products_le : f.products.size ≤ Nat.pow 10 digitLimit

theorem Modest.arena (h : f.Modest F D K) (hf : f.WellFormed) : f.arena.Modest F D K where
  built := hf.arena
  sized _ s hs := h.sized s (List.mem_of_getElem? hs)
  depth_le := h.depth_le
  copies_le i s hs := by
    have hmem := List.mem_of_getElem? hs
    have hF := (h.sized s hmem).one_le (hf.arena.stream i s hs)
    have hle : F ≤ f.arena.allowance F D i := Nat.le_mul_of_pos_right F (Nat.pow_pos (by omega))
    exact (h.mult_le s hmem).trans (Int.ofNat_le.2 hle)

namespace WellFormed

variable (hf : f.WellFormed)
include hf

/-- Products are numbered by how many there were before. -/
theorem isWritable_id (hsize : f.products.size ≤ Nat.pow 10 digitLimit) {name : String} {p : Product}
    (hp : f.products.get? name = some p) : IsWritable p.id := by
  have hid := List.mem_map_of_mem (f := Product.id) (Table.mem_values_iff.2 ⟨name, hp⟩)
  rw [hf.catalogue.numbered] at hid
  obtain ⟨n, hn, hid⟩ := List.mem_map.1 hid
  rw [← hid]
  exact (List.mem_range.1 hn).trans_le hsize

theorem exists_productName (hlisted : f.Listed config) {i : Nat} {s : Stream} (hs : f.arena.stream? i = some s)
    {p : Product} (hp : p ∈ s.recipe.outputTotals.keys) : ∃ name, f.productName p = .ok name := by
  obtain ⟨part, hpart, rfl⟩ := List.mem_map.1 (Recipe.mem_keys_totals.1 hp)
  obtain ⟨name, hname⟩ := hlisted.streams i s hs part (List.mem_append_right _ hpart)
  refine ⟨name, ?_⟩
  unfold productName
  rw [(hf.catalogue.inverse name _).1 hname]

theorem exists_streamName {i : Nat} (hi : i < f.arena.size) : ∃ name, f.streamName i = .ok name := by
  obtain ⟨name, hname⟩ : ∃ name, f.labels[i]? = some name := ⟨_, List.getElem?_eq_getElem (hf.labels_length ▸ hi)⟩
  refine ⟨name, ?_⟩
  unfold streamName
  rw [hname]

variable (ha : f.arena.Modest F D K) (hroom : HasRoom F D K) (hlisted : f.Listed config)
include ha hroom hlisted

/-- A report finds a name and a rate for every output. -/
theorem exists_report {name : String} {i : Nat} {s : Stream} (hi : f.streams.get? name = some i)
    (hs : f.arena.stream? i = some s) : ∃ report, f.report name = .ok report := by
  have hrate (p : Product) (hp : p ∈ s.recipe.outputTotals.keys) : ∃ ρ, f.arena.rateOf i p = .ok (some ρ) := by
    obtain ⟨r, hr, _⟩ := ha.exists_rateOf hroom hs p
    cases r with
    | some ρ => exact ⟨ρ, hr⟩
    | none =>
      have hpos := (hf.arena.stream i s hs).steady.output_pos (Recipe.mem_keys_totals.1 hp)
      rw [Arena.rateOf_eq] at hr
      have hzero := Arena.output_eq_zero_of_none hf.arena.steady hr
      rw [Arena.output_eq hs] at hzero
      exact absurd hzero hpos.ne'
  obtain ⟨wanted, hwanted⟩ : ∃ wanted, f.reportedProducts s [] = .ok wanted :=
    Result.exists_mapM fun p hp =>
      let ⟨name, hname⟩ := hf.exists_productName hlisted hs hp
      Result.exists_bind hname ⟨(name, p), rfl⟩
  have hlookup : ∀ entry ∈ wanted, ∃ ρ, f.arena.rateOf i entry.2 = .ok (some ρ) := by
    intro entry hentry
    obtain ⟨p, hp, hentry⟩ := Result.exists_of_mem_mapM hwanted hentry
    obtain ⟨_, _, hentry⟩ := Result.bind_eq_ok.1 hentry
    obtain rfl := Result.pure_eq_ok.1 hentry
    exact hrate p hp
  refine Result.exists_bind (resolve_eq_ok hi) (Result.exists_bind (Arena.stream_of_eq_some hs) ?_)
  refine Result.exists_bind hwanted ?_
  refine (Result.exists_foldlM (fun entry hentry rates => ?_) ∅).elim fun rates hrates =>
    Result.exists_bind hrates ⟨_, rfl⟩
  obtain ⟨ρ, hρ⟩ := hlookup entry hentry
  exact Result.exists_bind hρ ⟨_, rfl⟩

end WellFormed

/-- Balancing a registered stream answers with the names of the streams that it has raised. -/
theorem answers_solve (hf : f.WellFormed) (h : f.Modest F D K) (hroom : HasRoom F D K)
    (hlisted : f.Listed config) (hconfig : config.epsilon = defaultEpsilon) {name : String} {i : Nat} {s : Stream}
    (hi : f.streams.get? name = some i) (hs : f.arena.stream? i = some s) :
    Action.Triple (· = f) (solve name) (fun _ _ => True) fun _ _ => False := by
  have hwritable (j : Nat) (t : Stream) (ht : f.arena.stream? j = some t) (slot : Slot) (hslot : slot ∈ t.inputs) :
      IsWritable slot.product.id := by
    have hp := Recipe.mem_inputProducts.1 ((hf.arena.stream j t ht).mem_inputProducts hslot)
    obtain ⟨part, hpart, hproduct⟩ := List.mem_map.1 hp
    obtain ⟨_, hlookup⟩ := hlisted.streams j t ht part (List.mem_append_left _ hpart)
    exact hf.isWritable_id h.products_le (hproduct ▸ hlookup)
  refine Action.Triple.bind_current fun g hg => ?_
  subst g
  refine Action.Triple.bind_lift (fun _ hfault => ?_) fun j hj => ?_
  · rw [streamIndex, resolve_eq_ok hi] at hfault
    cases hfault
  obtain rfl := Except.ok.inj ((resolve_eq_ok hi).symm.trans hj)
  rw [hlisted.epsilon, hconfig]
  refine Action.Triple.bind (R := fun changes _ => ∀ c ∈ changes, c.stream < f.arena.size) ?_ fun changes => ?_
  · refine Action.Triple.focus (S := fun changes _ => ∀ c ∈ changes, c.stream < f.arena.size) (F := fun _ _ => False)
      ?_ (fun _ _ _ _ hc => hc) fun _ _ _ _ hf => hf
    rintro _ rfl
    exact ((h.arena hf).answers_solve hroom hs hwritable).weaken (fun _ ha => ha) (fun _ _ ha => ha.2)
      fun _ _ hf => hf
  · refine Action.Triple.fix fun g hchanges => ?_
    refine (Action.Triple.mapM fun c hc => ?_).weaken (fun _ hg => hg) (fun _ _ _ => trivial) fun _ _ hf => hf
    obtain ⟨label, hlabel⟩ := hf.exists_streamName (hchanges c hc)
    refine Action.Triple.bind_lift (fun _ hfault => ?_) fun _ _ => Action.Triple.pure fun _ hg => hg
    rw [hlabel] at hfault
    cases hfault

/-- Whatever calls were made to a new factory, if its figures are modest and leave room on doubles then
every registered stream has an efficiency, a rate for every product and a report of its outputs, and can be
balanced. -/
theorem run_answers (hconfig : config.epsilon = defaultEpsilon) (least : Level) (calls : List Call)
    (hroom : HasRoom F D K) :
    let s := run calls { state := empty config, least }
    s.state.Modest F D K → ∀ name i, s.state.streams.get? name = some i →
      (∃ e, s.state.efficiency name = .ok e) ∧
      (∀ product p, s.state.products.get? product = some p → ∃ rate, s.state.rateOf name product = .ok rate) ∧
      (∃ report, s.state.report name = .ok report) ∧
      ∃ changes t, solve name s = .ok changes t := by
  intro s h name i hi
  have hf : s.state.WellFormed := wellFormed_run (wellFormed_empty config) calls
  have hlisted : s.state.Listed config := run_keeps listed_closedUnderCalls.keeps_act calls (listed_empty config)
  have ha := h.arena hf
  obtain ⟨r, hr⟩ : ∃ r, s.state.arena.stream? i = some r := ⟨_, List.getElem?_eq_getElem (hf.index_lt hi)⟩
  refine ⟨?_, fun product p hp => ?_, hf.exists_report ha hroom hlisted hi hr, ?_⟩
  · obtain ⟨e, _, he, _⟩ := ha.rated_efficiency hroom hr
    exact Result.exists_bind (resolve_eq_ok hi) ⟨e, he⟩
  · obtain ⟨rate, hrate, _⟩ := ha.exists_rateOf hroom hr p
    exact Result.exists_bind (resolve_eq_ok hi) (Result.exists_bind (resolve_eq_ok hp) ⟨rate, hrate⟩)
  · obtain ⟨changes, t, ht, _⟩ := (Action.wp.of_triple (answers_solve hf h hroom hlisted hconfig hi hr)).exists_ok
    exact ⟨changes, t, ht⟩

/-- A mine that digs each tick, and a refinery that takes one ore in so many ticks. -/
def refinery (period : Nat) : List Call :=
  [.registerProduct "ore" "factory", .registerProduct "iron" "factory",
    .registerRecipe "mining" (.list []) (.list [.text "ore"]) (.int 1),
    .registerRecipe "refining" (.list [.text "ore"]) (.list [.text "iron"]) (.int period),
    .registerStream "mine" (.call (.text "mining") [] (.int 1)),
    .registerStream "refine" (.call (.text "refining") [.stream (.text "mine")] (.int 1))]

/-- A refinery may take its time. -/
theorem run_answers_refinery :
    let s := built (refinery (10 ^ 20))
    (∃ e, s.state.efficiency "refine" = .ok e) ∧ (∃ rate, s.state.rateOf "refine" "iron" = .ok rate) ∧
      (∃ report, s.state.report "refine" = .ok report) ∧ ∃ changes t, solve "refine" s = .ok changes t := by
  have hsized : ∀ s ∈ (built (refinery (10 ^ 20))).state.arena.streams, s.Sized (10 ^ 20) 1 := by decide +kernel
  have hmult : ∀ s ∈ (built (refinery (10 ^ 20))).state.arena.streams, s.mult ≤ (10 ^ 20 : Nat) := by decide +kernel
  have hsize : (built (refinery (10 ^ 20))).state.arena.size = 2 := by decide +kernel
  have hproducts : (built (refinery (10 ^ 20))).state.products.size ≤ Nat.pow 10 digitLimit := by decide +kernel
  have hiron : (built (refinery (10 ^ 20))).state.products.get? "iron" = some ⟨1, 0⟩ := by decide +kernel
  have hmodest : (built (refinery (10 ^ 20))).state.Modest (10 ^ 20) 1 1 := by
    refine ⟨hsized, hmult, fun i s hs => (Arena.depth_le _ i).trans ?_, hproducts⟩
    have hlt := Arena.lt_size_of_stream? hs
    omega
  obtain ⟨hefficiency, hrate, hreport, hsolve⟩ := @run_answers {} (10 ^ 20) 1 1 rfl .info (refinery (10 ^ 20))
    (by decide +kernel) hmodest "refine" 1 (by decide +kernel)
  exact ⟨hefficiency, hrate "iron" _ hiron, hreport, hsolve⟩

/-- One that takes too long consumes at a rate that rounds to zero, although it is not the zero rate, and
then what arrives is divided by it: every registration is answered, and no query is. -/
theorem refinery_divides_by_zero :
    (∀ entry ∈ transcript (refinery (10 ^ 400)) { state := empty {}, least := .info }, entry.2.isOk = true) ∧
      let s := built (refinery (10 ^ 400))
      (∃ fault, s.state.efficiency "refine" = .error fault ∧ fault.message = "division by zero") ∧
        (∃ fault, s.state.rateOf "refine" "iron" = .error fault ∧ fault.message = "division by zero") ∧
        (∃ fault, s.state.report "refine" = .error fault ∧ fault.message = "division by zero") ∧
        ∃ fault, (solve "refine").outcome s = .error fault ∧ fault.message = "division by zero" :=
  ⟨by decide +kernel, by decide +kernel, by decide +kernel, by decide +kernel, by decide +kernel⟩

end Factory

end Conveyor
