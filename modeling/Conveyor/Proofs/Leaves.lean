-- SUMMARY: A stream and the leaves that it takes everything from: how ticks of either move the stock between them.
import Conveyor.Proofs.Efficiency.Supply
import Conveyor.Proofs.Reserve
import Conveyor.Proofs.Turn

/-!
# Leaves of its own

A stream that has its inputs from leaves which serve nobody else shares their stock with them alone. What
either holds changes at their boundaries only: a leaf adds a cycle's yield while its buffer has room, and
the taker draws, then turns what it needs for a cycle into what it makes.
-/

namespace Conveyor

/-- A stream with its index and the ticks of its cycle. -/
structure Placed where
  index : Nat
  stream : Stream
  period : Nat

namespace Placed

/-- The products that the stream takes. -/
abbrev inputs (x : Placed) : List Product := x.stream.recipe.inputProducts

/-- Units of a product that a cycle of all copies takes. -/
def need (x : Placed) (p : Product) : Int := x.stream.recipe.requiredOf p * x.stream.mult

/-- Units of a product that a cycle of all copies gives. -/
def yield (x : Placed) (p : Product) : Int := x.stream.recipe.yieldOf p * x.stream.mult

/-- The arena has the stream at this index, with this period. -/
structure In (x : Placed) (a : Arena) : Prop where
  stream : a.stream? x.index = some x.stream
  period : x.stream.recipe.period = .ok x.period

instance (x : Placed) (a : Arena) : Decidable (x.In a) :=
  decidable_of_iff (a.stream? x.index = some x.stream ∧ x.stream.recipe.period.toOption = some (x.period : Int))
    ⟨fun h => ⟨h.1, Result.toOption_eq_some.1 h.2⟩, fun h => ⟨h.stream, Result.toOption_eq_some.2 h.period⟩⟩

theorem In.period_pos {x : Placed} {a : Arena} (h : x.In a) (hbuilt : x.stream.Built) : 0 < x.period := by
  obtain ⟨n, hn, hpos⟩ := hbuilt.steady.exists_period
  obtain rfl := Int.ofNat.inj (Except.ok.inj (hn.symm.trans h.period))
  exact hpos

end Placed

/-- A leaf that makes one product runs as long as it has room for it. -/
theorem Stream.canProduce_leaf {s : Stream} {p : Product} {b : Buffer} (htakes : s.recipe.inputProducts = [])
    (hout : ∀ part ∈ s.recipe.outputs, part.product = p) (hmem : p ∈ s.recipe.outputs.map Part.product)
    (hb : s.buffers.get? p = some b) : s.canProduce = true ↔ s.recipe.yieldOf p * s.mult ≤ b.free := by
  rw [canProduce_iff]
  constructor
  · intro h
    obtain ⟨n, hn⟩ := Table.mem_keys_iff.1 (Recipe.mem_keys_totals.2 hmem)
    obtain ⟨b', hb', hle⟩ := h.2 p n hn
    obtain rfl := Option.some.inj (hb.symm.trans hb')
    rwa [Recipe.yieldOf_eq_of_get? hn]
  · refine fun h => ⟨fun q n hn => ?_, fun q n hn => ?_⟩
    · have hq : q ∈ s.recipe.inputProducts := Table.mem_keys_iff.2 ⟨n, hn⟩
      rw [htakes] at hq
      cases hq
    · obtain ⟨part, hpart, rfl⟩ := List.mem_map.1 (Recipe.mem_keys_totals.1 (Table.mem_keys_iff.2 ⟨n, hn⟩))
      obtain rfl := hout part hpart
      exact ⟨b, hb, Recipe.yieldOf_eq_of_get? hn ▸ h⟩

namespace Arena

/-- Stream `x` takes every input product from a leaf that yields nothing else, has no other consumer and
yields it as fast as `x` needs it. -/
structure OwnLeaves (a : Arena) (x : Placed) (source : Product → Placed) : Prop where
  taker : x.In a
  leaf : ∀ p ∈ x.inputs, (source p).In a ∧ (source p).stream.inputs = []
  bound : ∀ slot ∈ x.stream.inputs, slot.supplier = (source slot.product).index
  only : ∀ p ∈ x.inputs, ∀ part ∈ (source p).stream.recipe.outputs, part.product = p
  alone : ∀ p ∈ x.inputs, ∀ e ∈ a.streams.zipIdx, e.2 ≠ x.index →
    ∀ slot ∈ e.1.inputs, slot.supplier ≠ (source p).index
  produces : x.stream.recipe.outputs ≠ []
  apart : ∀ p ∈ x.inputs, p ∉ x.stream.recipe.outputs.map Part.product
  rate : ∀ p ∈ x.inputs, x.need p * (source p).period ≤ (source p).yield p * x.period

instance (a : Arena) (x : Placed) (source : Product → Placed) : Decidable (a.OwnLeaves x source) :=
  decidable_of_iff (_ ∧ _ ∧ _ ∧ _ ∧ _ ∧ _ ∧ _ ∧ _)
    ⟨fun ⟨taker, leaf, bound, only, alone, produces, apart, rate⟩ =>
      ⟨taker, leaf, bound, only, alone, produces, apart, rate⟩,
    fun h => ⟨h.taker, h.leaf, h.bound, h.only, h.alone, h.produces, h.apart, h.rate⟩⟩

/-- No stream draws from `x` what `x` takes itself. -/
def Untapped (a : Arena) (x : Placed) : Prop :=
  ∀ s ∈ a.streams, ∀ slot ∈ s.inputs, slot.supplier = x.index → slot.product ∉ x.inputs

instance (a : Arena) (x : Placed) : Decidable (a.Untapped x) :=
  inferInstanceAs (Decidable (∀ s ∈ a.streams, ∀ slot ∈ s.inputs, _))

/-- What it takes for `k` cycles on end, `lead` turns after the start, with buffers for `m` cycles. -/
structure Sustainable (m k lead : Nat) (a : Arena) (x : Placed) (source : Product → Placed) : Prop where
  built : a.Built
  own : a.OwnLeaves x source
  untapped : a.Untapped x
  le : k ≤ m
  leads : ∀ p ∈ x.inputs, (source p).period ≤ lead * x.period
  fills : ∀ p ∈ x.inputs, k * x.need p ≤ (k + lead) * (m * (source p).yield p)

namespace Sustainable

variable {m k lead : Nat} {a : Arena} {x : Placed} {source : Product → Placed} {p q : Product}

theorem taker_built (h : Sustainable m k lead a x source) : x.stream.Built :=
  h.built.stream _ _ h.own.taker.stream

theorem period_pos (h : Sustainable m k lead a x source) : 0 < x.period :=
  h.own.taker.period_pos h.taker_built

theorem taker_yield_nonneg (h : Sustainable m k lead a x source) (p : Product) : 0 ≤ x.yield p := by
  have hmult : 0 ≤ x.stream.mult := Int.le_trans Int.one_nonneg h.taker_built.copies
  exact Int.mul_nonneg (Recipe.yieldOf_nonneg h.taker_built.positive p) hmult

/-- The taker makes nothing that it takes. -/
theorem not_mem_inputs (h : Sustainable m k lead a x source) {n : Int}
    (hn : x.stream.recipe.outputTotals.get? p = some n) : p ∉ x.inputs :=
  fun hp => h.own.apart p hp (Recipe.mem_keys_totals.1 (Table.mem_keys_iff.2 ⟨n, hn⟩))

theorem leaf_built (h : Sustainable m k lead a x source) (hp : p ∈ x.inputs) :
    (source p).stream.Built :=
  h.built.stream _ _ (h.own.leaf p hp).1.stream

theorem leaf_inputs (h : Sustainable m k lead a x source) (hp : p ∈ x.inputs) :
    (source p).stream.recipe.inputProducts = [] :=
  (h.leaf_built hp).inputProducts_eq_nil (List.isEmpty_iff.2 (h.own.leaf p hp).2)

theorem pace (h : Sustainable m k lead a x source) (hp : p ∈ x.inputs) :
    Pace m k lead x.period (source p).period (x.need p) ((source p).yield p) where
  leaf_pos := (h.own.leaf p hp).1.period_pos (h.leaf_built hp)
  need_pos := by
    have hmult : 0 < x.stream.mult := h.taker_built.copies
    exact Int.mul_pos (Recipe.requiredOf_pos h.taker_built.positive hp) hmult
  rate := h.own.rate p hp
  leads := h.leads p hp
  fills := h.fills p hp

theorem yield_pos (h : Sustainable m k lead a x source) (hp : p ∈ x.inputs) : 0 < (source p).yield p :=
  (h.pace hp).yield_pos

/-- The leaf does make the product. -/
theorem mem_outputs (h : Sustainable m k lead a x source) (hp : p ∈ x.inputs) :
    p ∈ (source p).stream.recipe.outputs.map Part.product := by
  have hmult : 0 ≤ (source p).stream.mult := Int.le_trans Int.one_nonneg (h.leaf_built hp).copies
  exact Recipe.mem_outputs_of_yieldOf (pos_of_mul_pos_left (h.yield_pos hp) hmult)

/-- Different products come from different leaves. -/
theorem eq_of_index_eq (h : Sustainable m k lead a x source) (hp : p ∈ x.inputs) (hq : q ∈ x.inputs)
    (hindex : (source p).index = (source q).index) : p = q := by
  have hstream : (source p).stream = (source q).stream := by
    have hsource := (h.own.leaf p hp).1.stream
    rw [hindex] at hsource
    exact Option.some.inj (hsource.symm.trans (h.own.leaf q hq).1.stream)
  obtain ⟨part, hpart, rfl⟩ := List.mem_map.1 (h.mem_outputs hp)
  exact h.own.only q hq part (hstream ▸ hpart)

theorem leaf_lt (h : Sustainable m k lead a x source) (hp : p ∈ x.inputs) :
    (source p).index < x.index := by
  obtain ⟨slot, hslot, rfl⟩ := h.taker_built.exists_slot hp
  rw [← h.own.bound slot hslot]
  exact h.built.bindsEarlier.lt ⟨x.stream, h.own.taker.stream, slot, hslot, rfl⟩

end Sustainable

/-! ## Stock -/

/-- The stock of a product with the taker `x` and with its leaf `u`, after `c` cycles of `x`. -/
def HasReserve (m : Nat) (x u : Placed) (p : Product) (age : Nat → Nat) (c : Nat) (a : Arena) : Prop :=
  ∃ taken left, (a.buffer? x.index p).getD ⟨0, m * x.need p⟩ = ⟨taken, m * x.need p⟩ ∧
    taken ≤ m * x.need p ∧ a.buffer? u.index p = some ⟨left, m * u.yield p⟩ ∧
    Reserve m x.period u.period (x.need p) (u.yield p) (age x.index) (age u.index) c taken left

/-- What the taker holds of its products, and the reserves of its inputs. -/
structure Stocks (m : Nat) (x : Placed) (source : Product → Placed) (age : Nat → Nat) (c : Nat)
    (a : Arena) : Prop where
  products : ∀ p n, x.stream.recipe.outputTotals.get? p = some n → ∃ b, a.buffer? x.index p = some b ∧
    0 ≤ b.current ∧ b.current ≤ c * x.yield p ∧ b.max = m * x.yield p
  reserves : ∀ p ∈ x.inputs, HasReserve m x (source p) p age c a

variable {m k lead c : Nat} {a₀ a b : Arena} {x u : Placed} {source : Product → Placed} {age age' : Nat → Nat}
  {p : Product} {s s' : Stream}

theorem HasReserve.congr (h : HasReserve m x u p age c a) (htaken : b.buffer? x.index p = a.buffer? x.index p)
    (hleft : b.buffer? u.index p = a.buffer? u.index p) (hage : age' x.index = age x.index)
    (hleafAge : age' u.index = age u.index) : HasReserve m x u p age' c b := by
  obtain ⟨taken, left, htaken', hle, hleft', hreserve⟩ := h
  refine ⟨taken, left, htaken ▸ htaken', hle, hleft ▸ hleft', ?_⟩
  rwa [hage, hleafAge]

namespace Stocks

/-- As streams are registered, their buffers are empty. -/
theorem start (hsetup : Sustainable m k lead a₀ x source)
    (hfresh : ∀ i s, a₀.stream? i = some s → s = Stream.fresh s.recipe s.inputs s.mult m) :
    Stocks m x source (fun _ => 0) 0 a₀ where
  products p n hn := by
    have hbuffers := congrArg Stream.buffers (hfresh _ _ hsetup.own.taker.stream)
    refine ⟨⟨0, n * m * x.stream.mult⟩, ?_, Int.le_refl 0, by simp, ?_⟩
    · rw [buffer?, hsetup.own.taker.stream, Option.bind_some, hbuffers, Stream.fresh, Table.get?_mapValues, hn]
      rfl
    · rw [Placed.yield, Recipe.yieldOf_eq_of_get? hn]
      ring
  reserves p hp := by
    have htaker := congrArg Stream.buffers (hfresh _ _ hsetup.own.taker.stream)
    have hleaf := congrArg Stream.buffers (hfresh _ _ (hsetup.own.leaf p hp).1.stream)
    have hneed := (hsetup.pace hp).need_pos
    obtain ⟨n, hn⟩ := Table.mem_keys_iff.1 (Recipe.mem_keys_totals.2 (hsetup.mem_outputs hp))
    refine ⟨0, 0, ?_, by positivity, ?_, Reserve.start _ _⟩
    · have hnone : x.stream.recipe.outputTotals.get? p = none :=
        Option.eq_none_iff_forall_ne_some.2 fun n hn => hsetup.not_mem_inputs hn hp
      rw [buffer?, hsetup.own.taker.stream, Option.bind_some, htaker, Stream.fresh, Table.get?_mapValues, hnone]
      rfl
    · have hcapacity : n * m * (source p).stream.mult = m * (source p).yield p := by
        rw [Placed.yield, Recipe.yieldOf_eq_of_get? hn]
        ring
      rw [buffer?, (hsetup.own.leaf p hp).1.stream, Option.bind_some, hleaf, Stream.fresh,
        Table.get?_mapValues, show (source p).stream.recipe.outputTotals.get? p = some n from hn,
        Option.map_some, hcapacity]

theorem withNext (h : Stocks m x source age c a) (v : Nat) (n : Int) : Stocks m x source age c (a.withNext v n) where
  products p n hn := by
    rw [buffer?_withNext]
    exact h.products p n hn
  reserves p hp := (h.reserves p hp).congr (buffer?_withNext ..) (buffer?_withNext ..) rfl rfl

theorem congr (h : Stocks m x source age c a) (hage : age' x.index = age x.index)
    (hleafAge : ∀ p ∈ x.inputs, age' (source p).index = age (source p).index) : Stocks m x source age' c a where
  products := h.products
  reserves p hp := (h.reserves p hp).congr rfl rfl hage (hleafAge p hp)

/-! ### The taker -/

theorem waits (h : Stocks m x source age c a) (hsetup : Sustainable m k lead a₀ x source)
    (hbetween : ¬ x.period ∣ age x.index + 1) : Stocks m x source (older age x.index) c a where
  products := h.products
  reserves p hp := by
    obtain ⟨taken, left, htaken, hle, hleft, hreserve⟩ := h.reserves p hp
    refine ⟨taken, left, htaken, hle, hleft, ?_⟩
    rw [older_self, older_of_ne age (hsetup.leaf_lt hp).ne]
    exact hreserve.waits hbetween

/-- At its boundary the taker draws of every input, and of nothing that it makes. -/
theorem draws (h : Stocks m x source age c a) (hsetup : Sustainable m k lead a₀ x source)
    (hs : a.stream? x.index = some s) (hsame : x.stream.Same s) (hboundary : x.period ∣ age x.index + 1)
    (hages : ∀ p ∈ x.inputs, age (source p).index = age x.index + 1) :
    Stocks m x source (older age x.index) c (a.draw m x.index s.inputs) where
  products p n hn := by
    have hnone : ∀ slot ∈ s.inputs, slot.product ≠ p := by
      rintro slot hslot rfl
      exact hsetup.not_mem_inputs hn (hsetup.taker_built.mem_inputProducts (hsame.inputs ▸ hslot))
    rw [buffer?_draw_of_product hnone]
    exact h.products p n hn
  reserves p hp := by
    obtain ⟨taken, left, htaken, hle, hleft, hreserve⟩ := h.reserves p hp
    rw [hages p hp] at hreserve
    have hinput : s.inputBuffer p m = ⟨taken, m * x.need p⟩ := by
      have hcapacity : x.stream.recipe.requiredOf p * m * x.stream.mult = m * x.need p := by
        unfold Placed.need
        ring
      rw [inputBuffer_eq hs, hsame.recipe, hsame.mult, hcapacity, htaken]
    have hslot : p ∈ s.inputs.map Slot.product := by
      obtain ⟨slot, hslot, hproduct⟩ := hsetup.taker_built.exists_slot hp
      exact List.mem_map.2 ⟨slot, hsame.inputs ▸ hslot, hproduct⟩
    have hbound : ∀ slot ∈ s.inputs, slot.product = p → slot.supplier = (source p).index := by
      intro slot hslot hproduct
      rw [hsetup.own.bound slot (hsame.inputs ▸ hslot), hproduct]
    have hnonneg := hreserve.left_nonneg (hsetup.yield_pos hp)
    obtain ⟨hdest, hsource⟩ := buffer?_draw (m := m) hs (hsetup.leaf_lt hp).ne hbound hslot hleft hnonneg
    have hmoved : (⟨taken, m * x.need p⟩ : Buffer).movable ⟨left, m * (source p).yield p⟩ =
        min left (m * x.need p - taken) := by
      simp only [Buffer.movable, Buffer.free]
      omega
    rw [hinput, hmoved] at hdest hsource
    refine ⟨_, _, (congrArg (Option.getD · _) hdest).trans rfl, ?_, hsource, ?_⟩
    · change taken + min left (m * x.need p - taken) ≤ m * x.need p
      omega
    · rw [older_self, older_of_ne age (hsetup.leaf_lt hp).ne, hages p hp]
      exact hreserve.draws (hsetup.pace hp) hboundary rfl

/-- A taker that is not ahead can run: there is enough of every input, and its own buffers have room for
so few cycles. -/
theorem canProduce (h : Stocks m x source age c a) (hsetup : Sustainable m k lead a₀ x source)
    (hs : a.stream? x.index = some s) (hsame : x.stream.Same s) (hc : c + 1 ≤ k)
    (hturns : age x.index / x.period = c + 1 + lead) : s.canProduce = true := by
  have hbuffer (p : Product) : a.buffer? x.index p = s.buffers.get? p := by
    rw [buffer?, hs]
    rfl
  rw [Stream.canProduce_iff, hsame.recipe, hsame.mult]
  refine ⟨fun p n hn => ?_, fun p n hn => ?_⟩
  · have hp : p ∈ x.inputs := Table.mem_keys_iff.2 ⟨n, hn⟩
    obtain ⟨taken, left, htaken, _, _, hreserve⟩ := h.reserves p hp
    have henough : x.need p ≤ taken := hreserve.enough (hsetup.pace hp) hc hsetup.le hturns
    rw [← Recipe.requiredOf_eq_of_get? hn]
    rw [hbuffer] at htaken
    cases hb : s.buffers.get? p with
    | some b =>
      rw [hb, Option.getD_some] at htaken
      exact ⟨b, rfl, htaken ▸ henough⟩
    | none =>
      -- Without a buffer there would be nothing, and that is not enough.
      rw [hb, Option.getD_none] at htaken
      have hneed := (hsetup.pace hp).need_pos
      obtain rfl : 0 = taken := congrArg Buffer.current htaken
      omega
  · obtain ⟨b, hb, _, hcurrent, hmax⟩ := h.products p n hn
    refine ⟨b, hbuffer p ▸ hb, ?_⟩
    have hroom : ((c + 1 : Nat) : Int) * x.yield p ≤ m * x.yield p :=
      mul_le_mul_of_nonneg_right (by exact_mod_cast hc.trans hsetup.le) (hsetup.taker_yield_nonneg p)
    rw [Nat.cast_succ, Int.add_mul, Int.one_mul] at hroom
    rw [← Recipe.yieldOf_eq_of_get? hn, Buffer.free, hmax]
    change x.yield p ≤ _
    omega

theorem runs (h : Stocks m x source age c a) (hsetup : Sustainable m k lead a₀ x source)
    (hs : a.stream? x.index = some s) (hsame : x.stream.Same s) (hproduce : s.produce? = some s') :
    Stocks m x source age (c + 1) (a.modify x.index fun _ => s') := by
  have hrun (p : Product) : (a.modify x.index fun _ => s').buffer? x.index p =
      (a.buffer? x.index p).map (·.gain (x.yield p - x.need p)) := by
    have hnet : x.stream.mult * (x.stream.recipe.yieldOf p - x.stream.recipe.requiredOf p) =
        x.yield p - x.need p := by
      unfold Placed.yield Placed.need
      ring
    rw [buffer?_produce hs hproduce, hsame.recipe, hsame.mult, hnet]
  have hneeds {p : Product} (hp : p ∈ x.inputs) : ∃ b, a.buffer? x.index p = some b := by
    obtain ⟨n, hn⟩ := Table.mem_keys_iff.1 hp
    obtain ⟨b, hb, _⟩ := (Stream.canProduce_iff.1 (Stream.canProduce_of_produce? hproduce)).1 p n
      (hsame.recipe ▸ hn)
    exact ⟨b, by rw [buffer?, hs]; exact hb⟩
  constructor
  · intro p n hn
    obtain ⟨b, hb, hlow, hhigh, hmax⟩ := h.products p n hn
    have hunused : x.need p = 0 := by
      rw [Placed.need, Recipe.requiredOf_eq_zero (hsetup.not_mem_inputs hn), Int.zero_mul]
    have hyield := hsetup.taker_yield_nonneg p
    refine ⟨b.gain (x.yield p), ?_, ?_, ?_, hmax⟩
    · rw [hrun, hb, Option.map_some, hunused, Int.sub_zero]
    · rw [Buffer.gain_current]
      omega
    · rw [Buffer.gain_current, Nat.cast_succ, Int.add_mul]
      omega
  · intro p hp
    obtain ⟨taken, left, htaken, hle, hleft, hreserve⟩ := h.reserves p hp
    obtain ⟨b, hb⟩ := hneeds hp
    have hunmade : x.yield p = 0 := by
      rw [Placed.yield, Recipe.yieldOf_eq_zero (hsetup.own.apart p hp), Int.zero_mul]
    have hneed := (hsetup.pace hp).need_pos
    refine ⟨taken - x.need p, left, ?_, by omega, ?_, hreserve.runs⟩
    · rw [hb, Option.getD_some] at htaken
      rw [hrun, hb, htaken, hunmade, Int.zero_sub]
      rfl
    · rwa [buffer?_modify_of_ne (hsetup.leaf_lt hp).ne']

/-! ### Leaves -/

/-- A tick of a leaf is about the one product that the leaf makes. -/
theorem of_leaf (h : Stocks m x source age c a) (hsetup : Sustainable m k lead a₀ x source) (hp : p ∈ x.inputs)
    (hbuffer : ∀ v q, v ≠ (source p).index → b.buffer? v q = a.buffer? v q)
    (hreserve : HasReserve m x (source p) p (older age (source p).index) c b) :
    Stocks m x source (older age (source p).index) c b where
  products q n hn := by
    rw [hbuffer _ q (hsetup.leaf_lt hp).ne']
    exact h.products q n hn
  reserves q hq := by
    cases Decidable.em (q = p) with
    | inl hqp => exact hqp ▸ hreserve
    | inr hqp =>
      have hother : (source q).index ≠ (source p).index := fun hindex => hqp (hsetup.eq_of_index_eq hq hp hindex)
      have htaker := (hsetup.leaf_lt hp).ne'
      exact (h.reserves q hq).congr (hbuffer _ q htaker) (hbuffer _ q hother) (older_of_ne age htaker)
        (older_of_ne age hother)

theorem leaf_waits (h : Stocks m x source age c a) (hsetup : Sustainable m k lead a₀ x source) (hp : p ∈ x.inputs)
    (hbetween : ¬ (source p).period ∣ age (source p).index + 1) :
    Stocks m x source (older age (source p).index) c a := by
  refine h.of_leaf hsetup hp (fun _ _ _ => rfl) ?_
  obtain ⟨taken, left, htaken, hle, hleft, hreserve⟩ := h.reserves p hp
  refine ⟨taken, left, htaken, hle, hleft, ?_⟩
  rw [older_self, older_of_ne age (hsetup.leaf_lt hp).ne']
  exact hreserve.leaf_waits hbetween

/-- A leaf can run if its buffer has room. -/
theorem canProduce_leaf (hsetup : Sustainable m k lead a₀ x source) (hp : p ∈ x.inputs)
    (hs : a.stream? (source p).index = some s) (hsame : (source p).stream.Same s) {left : Int}
    (hleft : a.buffer? (source p).index p = some ⟨left, m * (source p).yield p⟩) :
    s.canProduce = true ↔ left + (source p).yield p ≤ m * (source p).yield p := by
  have hyield := hsetup.yield_pos hp
  have htakes : s.recipe.inputProducts = [] := hsame.recipe.symm ▸ hsetup.leaf_inputs hp
  have hout : ∀ part ∈ s.recipe.outputs, part.product = p := hsame.recipe.symm ▸ hsetup.own.only p hp
  have hmem : p ∈ s.recipe.outputs.map Part.product := hsame.recipe.symm ▸ hsetup.mem_outputs hp
  have hfree : (⟨left, m * (source p).yield p⟩ : Buffer).free = max (m * (source p).yield p - left) 0 := rfl
  rw [buffer?, hs] at hleft
  rw [Stream.canProduce_leaf htakes hout hmem hleft, hsame.recipe, hsame.mult, hfree]
  change (source p).yield p ≤ _ ↔ _
  omega

theorem leaf_stalls (h : Stocks m x source age c a) (hsetup : Sustainable m k lead a₀ x source)
    (hp : p ∈ x.inputs) (hs : a.stream? (source p).index = some s) (hsame : (source p).stream.Same s)
    (hlacks : s.produce? = none) : Stocks m x source (older age (source p).index) c a := by
  refine h.of_leaf hsetup hp (fun _ _ _ => rfl) ?_
  obtain ⟨taken, left, htaken, hle, hleft, hreserve⟩ := h.reserves p hp
  refine ⟨taken, left, htaken, hle, hleft, ?_⟩
  rw [older_self, older_of_ne age (hsetup.leaf_lt hp).ne']
  refine hreserve.leaf_stalls (hsetup.yield_pos hp) (Int.lt_of_not_ge fun hroom => ?_)
  obtain ⟨s', hproduce⟩ := Stream.exists_produce? ((canProduce_leaf hsetup hp hs hsame hleft).2 hroom)
  rw [hlacks] at hproduce
  cases hproduce

theorem leaf_runs (h : Stocks m x source age c a) (hsetup : Sustainable m k lead a₀ x source)
    (hp : p ∈ x.inputs) (hs : a.stream? (source p).index = some s) (hsame : (source p).stream.Same s)
    (hboundary : (source p).period ∣ age (source p).index + 1) (hproduce : s.produce? = some s') :
    Stocks m x source (older age (source p).index) c (a.modify (source p).index fun _ => s') := by
  refine h.of_leaf hsetup hp (fun v q hv => buffer?_modify_of_ne hv.symm) ?_
  obtain ⟨taken, left, htaken, hle, hleft, hreserve⟩ := h.reserves p hp
  have hroom := (canProduce_leaf hsetup hp hs hsame hleft).1 (Stream.canProduce_of_produce? hproduce)
  refine ⟨taken, left + (source p).yield p, ?_, hle, ?_, ?_⟩
  · rwa [buffer?_modify_of_ne (hsetup.leaf_lt hp).ne]
  · have hused : (source p).stream.recipe.requiredOf p = 0 :=
      Recipe.requiredOf_eq_zero ((hsetup.leaf_inputs hp).symm ▸ List.not_mem_nil)
    rw [buffer?_produce hs hproduce, hleft, hsame.recipe, hsame.mult, hused, Int.sub_zero, Int.mul_comm]
    rfl
  · rw [older_self, older_of_ne age (hsetup.leaf_lt hp).ne']
    exact hreserve.leaf_runs (hsetup.yield_pos hp) hboundary hroom

end Stocks

end Arena

end Conveyor
