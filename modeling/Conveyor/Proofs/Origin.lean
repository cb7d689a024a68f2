-- SUMMARY: Stock of a product comes along bindings for it from a stream that makes it out of something else.
import Conveyor.Proofs.Efficiency.Supply

/-!
# Where stock comes from

A stream draws a product from whatever its supplier holds, be it what the supplier makes or what it
waits to use up itself. So a product travels along bindings for it, stream by stream, from one that
makes it. A stream that uses up what it makes starts nothing: it needs the product before its first
cycle. Where a product cannot get, no stock of it ever is, and a stream that needs it never runs.
-/

namespace Conveyor

/-! ## Streams -/

theorem Buffer.resize_current_le (b : Buffer) (capacity : Int) :
    (b.resize capacity).current ≤ b.current := by
  simp only [resize, spill]
  omega

namespace Stream

variable {s s' : Stream} {p : Product}

/-- A cycle needs some of every input product. -/
theorem stock_pos_of_input (hpositive : s.recipe.Positive) (hmult : 1 ≤ s.mult)
    (h : s.produce? = some s') (hp : p ∈ s.recipe.inputProducts) : 0 < s.stock p := by
  obtain ⟨n, hn⟩ := Table.mem_keys_iff.1 hp
  obtain ⟨b, hb, hle⟩ := (canProduce_iff.1 (canProduce_of_produce? h)).1 p n hn
  have hrequired : 0 < n := Recipe.requiredOf_eq_of_get? hn ▸ Recipe.requiredOf_pos hpositive hp
  rw [stock_eq hb]
  exact Int.lt_of_lt_of_le (Int.mul_pos hrequired (by omega)) hle

/-- A cycle leaves a product only where it was before, or where it is made and not used up. -/
theorem stock_pos_of_produce? (hpositive : s.recipe.Positive) (hmult : 1 ≤ s.mult)
    (h : s.produce? = some s') (hstock : 0 < s'.stock p) :
    0 < s.stock p ∨ p ∈ s.recipe.outputs.map Part.product ∧ p ∉ s.recipe.inputProducts := by
  by_cases hin : p ∈ s.recipe.inputProducts
  · exact .inl (stock_pos_of_input hpositive hmult h hin)
  by_cases hout : p ∈ s.recipe.outputs.map Part.product
  · exact .inr ⟨hout, hin⟩
  rw [stock_of_produce? h, net, Recipe.yieldOf_eq_zero hout, Recipe.requiredOf_eq_zero hin, sub_self,
    mul_zero, add_zero] at hstock
  exact .inl hstock

/-- Buffers of any capacities hold no more than before. -/
theorem stock_resize_le (s : Stream) (capacity : Buffer → Int) (p : Product) :
    stock { s with buffers := s.buffers.mapValues fun b => b.resize (capacity b) } p ≤ s.stock p := by
  unfold stock
  rw [Table.get?_mapValues]
  cases s.buffers.get? p with
  | none => exact Int.le_refl 0
  | some b => exact b.resize_current_le _

end Stream

namespace Arena

/-! ## Ways of a product -/

/-- Units of a product can get to a stream: it makes the product and uses none of it up, or it draws
the product from a stream that units can get to. -/
inductive Reaches (a : Arena) (p : Product) : Nat → Prop
  | made {i : Nat} {s : Stream} (stream : a.stream? i = some s)
      (output : p ∈ s.recipe.outputs.map Part.product) (input : p ∉ s.recipe.inputProducts) :
      Reaches a p i
  | drawn {i : Nat} {s : Stream} {slot : Slot} (stream : a.stream? i = some s) (mem : slot ∈ s.inputs)
      (product : slot.product = p) (supplier : Reaches a p slot.supplier) : Reaches a p i

/-- The arena `b`, which has grown out of `a`, holds products only where they can get in `a`. -/
structure Sourced (a b : Arena) : Prop where
  raised : a.Raised b
  reaches : ∀ i p, 0 < b.held i p → a.Reaches p i

variable {a b : Arena} {i j : Nat} {p q : Product} {s s' : Stream} {m : Int}

theorem Reaches.mono (h : a.Reaches p i)
    (hab : ∀ i s, a.stream? i = some s → ∃ t, b.stream? i = some t ∧ s.Raised t) : b.Reaches p i := by
  induction h with
  | made stream output input =>
    obtain ⟨t, ht, hst⟩ := hab _ _ stream
    exact .made ht (hst.recipe ▸ output) (hst.recipe ▸ input)
  | drawn stream mem product _ ih =>
    obtain ⟨t, ht, hst⟩ := hab _ _ stream
    exact .drawn ht (hst.inputs ▸ mem) product ih

/-- What is moved into a stream was with its supplier. -/
theorem held_pos_of_transfer {u : Nat} (h : 0 < (a.transfer i u p).held j q) :
    0 < a.held j q ∨ j = i ∧ q = p ∧ 0 < a.held u p := by
  unfold transfer at h
  split at h
  swap
  · exact .inl h
  next dest source hdest hsource =>
  have hdest' : ∃ b, (a.modify u (·.gain p (-dest.movable source))).buffer? i p = some b := by
    rw [buffer?_gain, hdest]
    split <;> exact ⟨_, rfl⟩
  obtain ⟨b, hb⟩ := hdest'
  rw [held_gain hb, held_gain hsource] at h
  have hcurrent : a.held u p = source.current := by
    obtain ⟨s, hs, hb⟩ := buffer?_eq_some_iff.1 hsource
    rw [held_eq hs, Stream.stock_eq hb]
  by_cases hpq : p = q
  swap
  · simp only [hpq, and_false, if_false, Int.add_zero] at h
    exact .inl h
  subst q
  simp only [and_true] at h
  -- A negative stock is moved whole, so what is left of it is nothing.
  have hmoved : dest.movable source ≤ source.current ∧
      (0 ≤ dest.movable source ∨ dest.movable source = source.current) := by
    simp only [Buffer.movable, Buffer.free]
    omega
  by_cases huj : u = j
  · subst j
    rw [if_pos rfl] at h
    split at h <;> exact .inl (by omega)
  · rw [if_neg huj, Int.add_zero] at h
    by_cases hij : i = j
    · by_cases hheld : 0 < a.held j p
      · exact .inl hheld
      · rw [if_pos hij] at h
        exact .inr ⟨hij.symm, rfl, by omega⟩
    · rw [if_neg hij, Int.add_zero] at h
      exact .inl h

/-! ## What time and balancing keep -/

/-- Some copy of every stream runs, on positive amounts. -/
def Running (a : Arena) : Prop := ∀ i s, a.stream? i = some s → s.recipe.Positive ∧ 1 ≤ s.mult

theorem Raised.running (h : a.Raised b) (ha : a.Running) : b.Running := by
  intro i t ht
  obtain ⟨s, hs, hst⟩ := h.exists_stream ht
  obtain ⟨hpositive, hmult⟩ := ha i s hs
  exact ⟨hst.recipe ▸ hpositive, Int.le_trans hmult hst.mult_le⟩

namespace Sourced

/-- Changing one stream leaves all sourced if what it holds then can get to it. -/
theorem modify (h : a.Sourced b) {f : Stream → Stream}
    (hf : ∀ s, b.stream? i = some s → s.Raised (f s) ∧
      ∀ p, 0 < (f s).stock p → 0 < s.stock p ∨ a.Reaches p i) : a.Sourced (b.modify i f) where
  raised := h.raised.trans (.modify fun s hs => (hf s hs).1)
  reaches j p hj := by
    rw [held_modify] at hj
    split at hj
    next hij =>
      subst j
      cases hs : b.stream? i with
      | none =>
        rw [hs] at hj
        exact absurd hj (Int.lt_irrefl 0)
      | some s =>
        rw [hs] at hj
        exact ((hf s hs).2 p hj).elim (fun hstock => h.reaches i p (held_eq hs p ▸ hstock)) id
    next => exact h.reaches j p hj

/-- Changing one stream leaves all sourced if the stream holds no more of anything. -/
theorem modify_of_le (h : a.Sourced b) {f : Stream → Stream}
    (hf : ∀ s, b.stream? i = some s → s.Raised (f s) ∧ ∀ p, 0 < (f s).stock p → 0 < s.stock p) :
    a.Sourced (b.modify i f) :=
  h.modify fun s hs => ⟨(hf s hs).1, fun p hp => .inl ((hf s hs).2 p hp)⟩

theorem openInput (h : a.Sourced b) (i : Nat) (p : Product) (m : Int) : a.Sourced (b.openInput i p m) where
  raised := h.raised.trans (Kept.openInput b i p m).raised
  reaches j q hj := h.reaches j q (held_openInput b i j p q ▸ hj)

/-- What a slot draws can get to its stream, since it could get to the supplier. -/
theorem transfer (h : a.Sourced b) (hs : a.stream? i = some s) {slot : Slot} (hslot : slot ∈ s.inputs) :
    a.Sourced (b.transfer i slot.supplier slot.product) where
  raised := h.raised.trans (Kept.transfer b i slot.supplier slot.product).raised
  reaches j q hj := by
    rcases held_pos_of_transfer hj with hj | ⟨rfl, rfl, hsupplier⟩
    · exact h.reaches j q hj
    · exact .drawn hs hslot rfl (h.reaches _ _ hsupplier)

theorem produce (h : a.Sourced b) (ha : a.Running) (hs : b.stream? i = some s)
    (hproduce : s.produce? = some s') : a.Sourced (b.modify i fun _ => s') := by
  refine h.modify fun t ht => ?_
  obtain rfl := Option.some.inj (hs.symm.trans ht)
  refine ⟨(Stream.produce?_same hproduce).raised, fun p hp => ?_⟩
  obtain ⟨r, hr, hrs⟩ := h.raised.exists_stream hs
  obtain ⟨hpositive, hmult⟩ := h.raised.running ha i s hs
  refine (Stream.stock_pos_of_produce? hpositive hmult hproduce hp).imp_right fun ⟨hout, hin⟩ => ?_
  exact .made hr (hrs.recipe ▸ hout) (hrs.recipe ▸ hin)

end Sourced

theorem sourced_closedUnderTime (ha : a.Running) (m : Int) : ClosedUnderTime m a.Sourced where
  openInput _ hb i p := hb.openInput i p m
  transfer b hb i t ht slot hslot _ hc := by
    obtain ⟨s, hs, hst⟩ := hb.raised.exists_stream ht
    exact hc.transfer hs (hst.inputs ▸ hslot)
  produce _ hb _ _ _ hs hproduce := hb.produce ha hs hproduce
  setNext _ hb _ _ := hb.modify_of_le fun _ _ => ⟨(Stream.setNext_same _ _).raised, fun _ hp => hp⟩

theorem sourced_closedUnderRaise (a : Arena) :
    Balancing.ClosedUnderRaise (fun _ => True) (fun _ => True) fun b => a.Sourced b.arena where
  visits _ _ := trivial
  suppliers _ _ _ _ _ _ := trivial
  raise _ hb _ _ _ _ _ hs _ hn hscale := hb.modify_of_le fun t ht => by
    obtain rfl := Option.some.inj (hs.symm.trans ht)
    rw [Stream.scale_eq_ok hscale]
    refine ⟨⟨rfl, rfl, Int.le_of_lt hn⟩, fun p hp => ?_⟩
    exact Int.lt_of_lt_of_le hp (Stream.stock_resize_le _ _ p)

/-! ## Streams that starve -/

/-- Some input product of stream `i` cannot get to it. -/
def Starved (a : Arena) (i : Nat) : Prop :=
  ∃ s, a.stream? i = some s ∧ ∃ p ∈ s.recipe.inputProducts, ¬ a.Reaches p i

/-- A cycle needs some of each input product, so a starved stream runs none. -/
theorem yields_attempt_starved (ha : a.Running) (hi : a.Starved i) :
    Action.Yields a.Sourced (attempt m i) fun done b => a.Sourced b ∧ done = false := by
  have hclosed := sourced_closedUnderTime ha m
  refine Action.Yields.bind (keeps_pull_of_slots (fun b hb => hclosed.openInput b hb i)
    fun b hb => hclosed.transfer b hb i).yields fun _ => ?_
  refine Action.Yields.bind_current fun b hb => Action.Yields.bind_lift fun s hs => ?_
  have hstream := stream_eq_ok hs
  cases hproduce : s.produce? with
  | none => exact Action.Triple.pure fun c hc => ⟨hc ▸ hb, rfl⟩
  | some s' =>
    obtain ⟨r, hr, p, hp, hnot⟩ := hi
    obtain ⟨r', hr', hrs⟩ := hb.raised.exists_stream hstream
    obtain rfl := Option.some.inj (hr.symm.trans hr')
    obtain ⟨hpositive, hmult⟩ := hb.raised.running ha i s hstream
    have hstock := Stream.stock_pos_of_input hpositive hmult hproduce (hrs.recipe.symm ▸ hp)
    exact absurd (hb.reaches i p (held_eq hstream p ▸ hstock)) hnot

theorem yields_runCycles_starved (ha : a.Running) (hi : a.Starved i) (n k : Nat) :
    Action.Yields a.Sourced (runCycles m i n k) fun completed b => a.Sourced b ∧ completed = k := by
  cases n with
  | zero => exact Action.Triple.pure fun _ hb => ⟨hb, rfl⟩
  | succ n =>
    refine Action.Yields.bind (yields_attempt_starved ha hi) fun done => ?_
    cases done with
    | true => exact fun _ hb => absurd hb.2 nofun
    | false => exact Action.Triple.pure fun _ hb => ⟨hb.1, rfl⟩

/-- A starved stream is reported to have produced nothing. -/
theorem yields_advance_starved (ha : a.Running) (i : Nat) (ticks : Int) :
    Action.Yields a.Sourced (advance i ticks m) fun report b =>
      a.Sourced b ∧ (a.Starved report.index → ∀ units ∈ report.produced.values, units = 0) := by
  have hclosed := sourced_closedUnderTime ha m
  refine Action.Yields.bind_current fun b hb => Action.Yields.bind_lift fun s _ => ?_
  refine Action.Yields.bind_lift fun period _ => Action.Yields.bind_lift fun advanced _ => ?_
  refine Action.Yields.bind (R := fun _ => a.Sourced)
    (Action.Triple.assign fun _ _ => hclosed.setNext b hb i advanced.2) fun _ => ?_
  refine Action.Yields.bind (R := fun completed b => a.Sourced b ∧ (a.Starved i → completed = 0)) ?_
    fun completed => ?_
  · by_cases hi : a.Starved i
    · exact (yields_runCycles_starved ha hi _ 0).weaken (fun _ hc => hc)
        fun _ _ hc => ⟨hc.1, fun _ => hc.2⟩
    · exact (hclosed.keeps_runCycles i _ 0).yields.weaken (fun _ hc => hc)
        fun _ _ hc => ⟨hc, fun h => absurd h hi⟩
  refine Action.Yields.bind (keeps_reportProduced i _).yields fun _ => Action.Triple.pure fun c hc => ?_
  refine ⟨hc.1, fun hi units hunits => ?_⟩
  obtain ⟨p, hp⟩ := Table.mem_values_iff.1 hunits
  obtain ⟨amount, _, rfl⟩ := Option.map_eq_some_iff.1 ((Table.get?_mapValues _ _ _).symm.trans hp)
  rw [hc.2 hi, Int.natCast_zero, Int.zero_mul]

theorem yields_tick_starved (ha : a.Running) (ticks : Int) (order : TickOrder) :
    Action.Yields a.Sourced (tick ticks order m) fun reports b =>
      a.Sourced b ∧ ∀ report ∈ reports, a.Starved report.index → ∀ units ∈ report.produced.values, units = 0 := by
  refine Action.Triple.bind_current fun b hb => Action.Yields.bind_lift fun is _ => ?_
  exact (Action.Triple.mapM_forall fun i _ => yields_advance_starved ha i ticks).weaken
    (fun _ hc => hc ▸ hb) (fun _ _ hc => hc) fun _ _ _ => trivial

end Arena

end Conveyor
