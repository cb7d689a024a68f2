-- SUMMARY: What commands do to the demo factory: what is refused, and that all else is done.
import Conveyor.Proofs.Demo
import Conveyor.Proofs.Factory.Alike
import Conveyor.Proofs.Factory.Answering

/-!
# Driving the demo factory

A capacity is refused unless a named stream makes the product, balancing unless the stream is named. Nothing
else that is asked of the demo factory fails: it stays at one of its stages, and its capacities stay within
what was given, copy by copy, so that every figure that is reported can be written.
-/

namespace Conveyor

namespace Demo

open Factory (resolve_eq_ok resolve_eq_error)

/-- The named stream makes the product. -/
def Makes (stream product : String) : Prop :=
  ∃ i s p, start.streams.get? stream = some i ∧ start.arena.stream? i = some s ∧
    start.products.get? product = some p ∧ p ∈ s.recipe.outputTotals.keys

/-- What each named stream makes. -/
def made : List (String × String) :=
  [("ironPlates", "Iron Plate"), ("copperCables", "Copper Cable"), ("greenChips", "Electronic Circuit")]

theorem makes_iff {stream product : String} : Makes stream product ↔ (stream, product) ∈ made := by
  have hmade : (∀ e ∈ start.streams.entries, ∀ s ∈ start.arena.stream? e.2, ∀ q ∈ start.products.entries,
        q.2 ∈ s.recipe.outputTotals.keys → (e.1, q.1) ∈ made) ∧
      ∀ m ∈ made, ∃ e ∈ start.streams.entries, e.1 = m.1 ∧ ∃ s ∈ start.arena.stream? e.2,
        ∃ q ∈ start.products.entries, q.1 = m.2 ∧ q.2 ∈ s.recipe.outputTotals.keys := by
    decide +kernel
  constructor
  · rintro ⟨i, s, p, hi, hs, hp, houtput⟩
    exact hmade.1 _ (Table.get?_eq_some_iff.1 hi) s hs _ (Table.get?_eq_some_iff.1 hp) houtput
  · intro h
    obtain ⟨⟨_, i⟩, he, rfl, s, hs, ⟨_, p⟩, hq, rfl, houtput⟩ := hmade.2 _ h
    exact ⟨i, s, p, Table.get?_eq_some_iff.2 he, hs, Table.get?_eq_some_iff.2 hq, houtput⟩

variable {order : TickOrder} {f : Factory} {st : Logged Factory} {stream product : String} {capacity : Int}

/-- The demo factory in use: after capacities were given, supplies balanced and time passed. -/
structure Running (order : TickOrder) (f : Factory) : Prop where
  line : f = line order f.arena
  raised : start.arena.Raised f.arena
  stage : ∃ stage ∈ stages, f.arena.Alike stage
  capped : f.arena.Capped defaultBufferMultiplier capacityBound
  stores : ∀ i, f.arena.StoresYield i

/-- The demo factory before any time has passed: no stream has drawn anything. -/
structure Standing (order : TickOrder) (f : Factory) : Prop extends Running order f where
  bare : f.arena.bare ∈ stages

/-- Bare of stock, a stage has buffers for what its streams make and for nothing else. -/
theorem keys_of_bare {a : Arena} (ha : a.bare ∈ stages) {i : Nat} {s : Stream} (hs : a.stream? i = some s) :
    s.buffers.keys = s.recipe.outputTotals.keys := by
  have hbare : a.bare.stream? i = some s.bare := by rw [Arena.stream?_bare, hs, Option.map_some]
  have houtputs := (sound_of_mem _ ha).buffers _ (List.mem_of_getElem? hbare)
  rwa [Stream.bare, Table.keys_mapValues] at houtputs

/-- Where the arena is bare tells at which stage it is. -/
theorem Standing.of_bare (hline : f = Demo.line order f.arena) (hraised : start.arena.Raised f.arena)
    (hcapped : f.arena.Capped defaultBufferMultiplier capacityBound) (hbare : f.arena.bare ∈ stages) :
    Standing order f where
  line := hline
  raised := hraised
  stage := ⟨_, hbare, f.arena.alike_bare⟩
  capped := hcapped
  stores _ _ hs _ hp := (keys_of_bare hbare hs).symm ▸ hp
  bare := hbare

theorem standing_start (order : TickOrder) : Standing order (Demo.line order start.arena) :=
  .of_bare rfl (.refl _) capped_start bare_start

namespace Running

variable (h : Running order f)
include h

/-- Commands change the arena and nothing else. -/
theorem line_withArena (arena : Arena) : { f with arena } = Demo.line order arena :=
  congrArg (fun g : Factory => { g with arena }) h.line

theorem wellFormed : f.WellFormed := by
  rw [h.line]
  exact (wellFormed_start.withConfig _).withArena h.raised

theorem streams_eq : f.streams = start.streams := by rw [h.line]; rfl

theorem products_eq : f.products = start.products := by rw [h.line]; rfl

/-- The products that a stream makes of others have names. -/
theorem outputs {i : Nat} {s : Stream} (hs : f.arena.stream? i = some s) {p : Product}
    (hp : p ∈ s.recipe.outputTotals.keys) :
    (∃ name, f.productName p = .ok name) ∧ IsWritable p.id ∧ s.recipe.requiredOf p = 0 := by
  obtain ⟨stage, hstage, halike⟩ := h.stage
  obtain ⟨t, ht, hst⟩ := halike.exists_stream hs
  obtain ⟨hname, hrest⟩ := (sound_of_mem stage hstage).outputs t (List.mem_of_getElem? ht) p (hst.recipe.symm ▸ hp)
  obtain ⟨name, hname⟩ := Option.isSome_iff_exists.1 hname
  have hnames : f.productNames = start.productNames := by rw [h.line]; rfl
  refine ⟨⟨name, ?_⟩, hst.recipe ▸ hrest⟩
  rw [Factory.productName, hnames, hname]

theorem legible : f.arena.Legible defaultBufferMultiplier capacityBound where
  built := h.wellFormed.arena
  capped := h.capped
  outputs _ _ hs _ hp := (h.outputs hs hp).2
  short := by
    obtain ⟨stage, hstage, halike⟩ := h.stage
    exact halike.totalCopies ▸ (sound_of_mem stage hstage).stock

end Running

/-! ## Capacities -/

/-- Before any time has passed a stream has buffers for what it makes and for nothing else. -/
theorem Standing.makes_iff (h : Standing order f) {i : Nat} {s : Stream} {p : Product}
    (hi : f.streams.get? stream = some i) (hs : f.arena.stream? i = some s)
    (hp : f.products.get? product = some p) : Makes stream product ↔ ∃ b, s.buffers.get? p = some b := by
  have hkeys := keys_of_bare h.bare hs
  obtain ⟨t, ht, hts⟩ := h.raised.exists_stream hs
  rw [h.streams_eq] at hi
  rw [h.products_eq] at hp
  rw [← Table.mem_keys_iff, hkeys, hts.recipe]
  constructor
  · rintro ⟨j, r, q, hj, hr, hq, hmakes⟩
    obtain rfl := Option.some.inj (hi.symm.trans hj)
    obtain rfl := Option.some.inj (ht.symm.trans hr)
    obtain rfl := Option.some.inj (hp.symm.trans hq)
    exact hmakes
  · exact fun hmakes => ⟨i, t, p, hi, ht, hp, hmakes⟩

theorem Standing.resize (h : Standing order f) {i : Nat} {s : Stream} {p : Product} {b : Buffer}
    (hs : f.arena.stream? i = some s) (hb : s.buffers.get? p = some b) (hlow : 0 ≤ capacity)
    (hhigh : capacity ≤ capacityBound) :
    Standing order { f with
      arena := f.arena.modify i fun t => { t with buffers := t.buffers.insert p (b.resize capacity) } } :=
  .of_bare (h.line_withArena _) (h.raised.trans (.modify fun _ _ => ⟨rfl, rfl, Int.le_refl _⟩))
    (h.capped.resize hs hb hlow hhigh) ((Arena.bare_insert hs hb _).symm ▸ h.bare)

variable (st) in
/-- A capacity is given where the stream makes the product, and is refused elsewhere. -/
theorem wp_setBuffer (h : Standing order st.state) (hlow : 0 ≤ capacity) (hhigh : capacity ≤ capacityBound) :
    (Factory.setBuffer stream product (.int capacity)).wp
      (fun _ t => Makes stream product ∧ Standing order t.state)
      (fun f _ => ¬ Makes stream product ∧ f.isValueError = true) st := by
  refine Action.wp.bind_current (Action.wp.bind_lift (fun f hf => ?unnamed) fun i hi => ?_)
  case unnamed =>
    obtain ⟨hnone, hvalue⟩ := resolve_eq_error hf
    refine ⟨?_, hvalue⟩
    rintro ⟨i, -, -, hi, -⟩
    rw [h.streams_eq, hi] at hnone
    cases hnone
  obtain ⟨_, ⟨⟩, hi⟩ := Factory.get?_of_resolve hi
  obtain ⟨s, hs⟩ : ∃ s, st.state.arena.stream? i = some s :=
    ⟨_, List.getElem?_eq_getElem (h.wellFormed.index_lt hi)⟩
  refine Action.wp.bind_ok (Arena.stream_of_eq_some hs) (Action.wp.bind_lift (fun f hf => ?unknown) fun p hp => ?_)
  case unknown =>
    obtain ⟨hnone, hvalue⟩ := resolve_eq_error hf
    refine ⟨?_, hvalue⟩
    rintro ⟨-, -, p, -, -, hp, -⟩
    rw [h.products_eq, hp] at hnone
    cases hnone
  obtain ⟨_, ⟨⟩, hp⟩ := Factory.get?_of_resolve hp
  refine Action.wp.bind_ok (Factory.requireInt_of_le hlow) ?_
  have hmakes := h.makes_iff hi hs hp
  cases hb : s.buffers.get? p with
  | none =>
    refine Action.wp.lift (fun _ hok => nomatch hok) fun f hf => ⟨fun hm => ?_, Refusal.isValueError_fail hf⟩
    obtain ⟨b, hb'⟩ := hmakes.1 hm
    rw [hb] at hb'
    cases hb'
  | some b =>
    have hdone := h.resize hs hb hlow hhigh
    have hspill : (Event.discarded (b.spill capacity) product stream).isWritable = true := by
      have hwritable : IsWritable (b.spill capacity) := by
        obtain ⟨hbounds, hmax⟩ := h.capped.buffer_le (Arena.buffer?_eq_some_iff.2 ⟨s, hs, hb⟩)
        have := hbounds.current_nonneg
        have := hbounds.current_le
        refine h.legible.isWritable ?_ ?_
        · simp only [Buffer.spill]; omega
        · simp only [Buffer.spill]; omega
      simp only [Event.isWritable, hwritable, decide_true]
    refine Action.wp.bind ?_
    change Action.wp _ _ _ { st with state := _ }
    refine Action.wp.ite (fun _ => ?_) fun _ => ⟨hmakes.2 ⟨b, hb⟩, hdone⟩
    exact Action.wp.report_of_writable hspill ⟨hmakes.2 ⟨b, hb⟩, hdone⟩ ⟨hmakes.2 ⟨b, hb⟩, hdone⟩

/-! ## Balancing -/

variable (st stream) in
/-- Balancing answers for every named stream, and is refused elsewhere. -/
theorem wp_solve (h : Standing order st.state) (hleast : st.least ∈ [Level.debug, .info]) :
    (Factory.solve stream).wp
      (fun _ t => (∃ i, start.streams.get? stream = some i) ∧ Standing order t.state)
      (fun f _ => start.streams.get? stream = none ∧ f.isValueError = true) st := by
  have hepsilon : st.state.config.epsilon = defaultEpsilon := by rw [h.line]; rfl
  have hlabels : st.state.labels = start.labels := by rw [h.line]; rfl
  refine Action.wp.bind_current (Action.wp.bind_lift (fun f hf => ?_) fun i hi => ?_)
  · rw [← h.streams_eq]
    exact resolve_eq_error hf
  obtain ⟨_, ⟨⟩, hi⟩ := Factory.get?_of_resolve hi
  rw [h.streams_eq] at hi
  rw [hepsilon]
  have hbare := (sound_of_mem _ h.bare).solve i (Table.mem_values_iff.2 ⟨stream, hi⟩) st.least hleast
  have hsolve := (((Arena.solve_bare i defaultEpsilon { st with state := st.state.arena }).wp hbare).and_keeps
    ((Arena.raised_closedUnderRaise start.arena).keeps_solve i _) h.raised).and_keeps
    (Arena.capped_closedUnderRaise.keeps_solve i _) h.capped
  refine Action.wp.bind (Action.wp.focus (hsolve.weaken ?_ fun f u hf => ?_))
  · rintro changes u ⟨⟨⟨v, ⟨hv, _⟩, hstage, hchanges⟩, hraised⟩, hcapped⟩
    have hdone : Standing order { st.state with arena := u.state } :=
      .of_bare (h.line_withArena _) hraised hcapped (hv ▸ hstage)
    refine (Action.wp.mapM (R := fun _ _ => True) (I := fun t => Standing order t.state) (fun c hc t ht => ?_) hdone).weaken
      (fun _ t ht => ⟨⟨i, hi⟩, ht.2⟩) fun _ _ hf => hf
    have hlabel : c.stream < st.state.labels.length := hlabels ▸ hchanges c hc
    have hname : st.state.streamName c.stream = .ok st.state.labels[c.stream] := by
      rw [Factory.streamName, List.getElem?_eq_getElem hlabel]
    exact Action.wp.bind_ok hname ⟨trivial, ht⟩
  · obtain ⟨⟨⟨_, _, hf⟩, _⟩, _⟩ := hf
    exact hf.elim

/-! ## Time -/

variable (st) in
/-- Time passes, and its reports can be written. -/
theorem wp_tick (h : Running order st.state) {ticks : Int} (hticks : 0 ≤ ticks) :
    (Factory.tick (.int ticks)).wp (fun rs t => (∀ r ∈ rs, r.Legible t.state.arena) ∧ Running order t.state)
      (fun _ _ => False) st := by
  have hmultiplier : st.state.config.bufferMultiplier = defaultBufferMultiplier := by rw [h.line]; rfl
  refine Action.wp.bind_ok (Factory.requireInt_of_le hticks) (Action.wp.bind_current ?_)
  rw [hmultiplier]
  have htick := (Arena.wp_tick_of_legible { st with state := st.state.arena } h.legible (by decide) ticks
    st.state.config.tickOrder).and_keeps ((Arena.storesYield_closedUnderTime _).keeps_tick ticks _) h.stores
  refine Action.wp.focus (htick.weaken (fun rs u hu => ?_) fun _ _ hf => hf.1)
  obtain ⟨⟨hreports, hlegible, halike⟩, hstores⟩ := hu
  obtain ⟨stage, hstage, hstart⟩ := h.stage
  exact ⟨fun r hr => (hreports r hr).of_alike halike, h.line_withArena _, h.raised.trans halike.raised,
    ⟨stage, hstage, halike.symm.trans hstart⟩, hlegible.capped, hstores⟩

/-! ## Questions -/

namespace Running

/-- What a report is about has a name. -/
theorem exists_names (h : Running order f) {r : StreamTick} (hr : r.Legible f.arena) :
    (∃ name, f.streamName r.index = .ok name) ∧
      ∀ e ∈ r.produced.entries, ∃ name, f.productName e.1 = .ok name := by
  obtain ⟨s, hs, hkeys⟩ := hr.outputs
  refine ⟨h.wellFormed.exists_streamName (Arena.lt_size_of_stream? hs), fun e he => ?_⟩
  exact (h.outputs hs (hkeys ▸ List.mem_map_of_mem he)).1

/-- What a report is about has a buffer. -/
theorem exists_buffer (h : Running order f) {r : StreamTick} (hr : r.Legible f.arena) :
    ∀ e ∈ r.produced.entries, ∃ held, f.arena.buffer r.index e.1 = .ok held := by
  obtain ⟨s, hs, hkeys⟩ := hr.outputs
  exact fun e he => (h.stores r.index).exists_buffer hs (hkeys ▸ List.mem_map_of_mem he)

theorem exists_report (h : Running order f) {name : String} (hname : name ∈ f.streams.keys) :
    ∃ lines, f.report name >>= StreamReport.lines = .ok lines := by
  obtain ⟨stage, hstage, halike⟩ := h.stage
  have hreport : f.report name = { start with arena := stage }.report name := by
    rw [Factory.report_eq_of_alike halike, h.line_withArena]
    rfl
  rw [hreport]
  exact Result.exists_of_isOk ((sound_of_mem stage hstage).report name (h.streams_eq ▸ hname))

theorem exists_diagram (h : Running order f) : ∃ drawing, f.diagram = .ok drawing := by
  obtain ⟨stage, hstage, halike⟩ := h.stage
  have hdiagram : f.diagram = { start with arena := stage }.diagram := by
    rw [Factory.diagram_eq_of_alike halike, h.line_withArena]
    rfl
  rw [hdiagram]
  exact Result.exists_of_isOk (sound_of_mem stage hstage).diagram

end Running

end Demo

end Conveyor
