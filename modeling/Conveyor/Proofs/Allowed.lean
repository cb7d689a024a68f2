-- SUMMARY: How many cycles a call completes: as many as the clock, the stock within reach and the room allow.
import Conveyor.Proofs.Bounds
import Conveyor.Proofs.Drawing

/-!
# What is allowed

A stream that consumes one kind of products and yields another draws along its slots before every cycle,
no more than its own buffers have room for. As long as one cycle's worth fits there, these buffers are a
store on the way and no limit. What a stream can use up is what it holds together with what its suppliers
hold, and every cycle takes its part of that, wherever the units are. So a call completes all the cycles
that this, the room for what is yielded and the clock allow.
-/

namespace Conveyor

/-- The slots of the stream at index `i` are for what it consumes, none of them leads back to it, and it
yields other products than it consumes. -/
structure Stream.OneWay (i : Nat) (s : Stream) : Prop where
  copies : 1 ≤ s.mult
  positive : s.recipe.Positive
  slots : ∀ p, p ∈ s.inputs.map Slot.product ↔ p ∈ s.recipe.inputs.map Part.product
  apart : ∀ slot ∈ s.inputs, slot.supplier ≠ i
  disjoint : ∀ p ∈ s.recipe.inputs.map Part.product, p ∉ s.recipe.outputs.map Part.product

namespace Stream.OneWay

variable {i : Nat} {s t : Stream} {p : Product}

theorem of_same (h : s.OneWay i) (hsame : s.Same t) : t.OneWay i where
  copies := hsame.mult ▸ h.copies
  positive := hsame.recipe ▸ h.positive
  slots := hsame.recipe ▸ hsame.inputs ▸ h.slots
  apart := hsame.inputs ▸ h.apart
  disjoint := hsame.recipe ▸ h.disjoint

theorem required_pos (h : s.OneWay i) (hp : p ∈ s.recipe.inputs.map Part.product) :
    0 < s.recipe.requiredOf p * s.mult :=
  Int.mul_pos (Recipe.requiredOf_pos h.positive (Recipe.mem_inputProducts.2 hp)) (by have := h.copies; omega)

theorem yield_pos (h : s.OneWay i) (hp : p ∈ s.recipe.outputs.map Part.product) :
    0 < s.recipe.yieldOf p * s.mult :=
  Int.mul_pos (Recipe.yieldOf_pos h.positive hp) (by have := h.copies; omega)

theorem net_of_input (h : s.OneWay i) (hp : p ∈ s.recipe.inputs.map Part.product) :
    s.net p = -(s.recipe.requiredOf p * s.mult) := by
  rw [Stream.net, Recipe.yieldOf_eq_zero (h.disjoint p hp)]
  ring

theorem net_of_output (h : s.OneWay i) (hp : p ∈ s.recipe.outputs.map Part.product) :
    s.net p = s.recipe.yieldOf p * s.mult := by
  have hnot : p ∉ s.recipe.inputProducts := fun hin => h.disjoint p (Recipe.mem_inputProducts.1 hin) hp
  rw [Stream.net, Recipe.requiredOf_eq_zero hnot]
  ring

end Stream.OneWay

namespace Arena

variable {a b : Arena} {i k : Nat} {s t t' : Stream} {slots : List Slot} {m : Int} {p q : Product}

/-! ## Reach and room -/

/-- Units of a product that a stream holds, with what the streams behind some slots hold of it. -/
def reach (a : Arena) (i : Nat) (slots : List Slot) (p : Product) : Int := a.held i p + a.offered slots p

/-- Units of a product that a stream has room for. -/
def room (a : Arena) (i : Nat) (p : Product) : Int := ((a.buffer? i p).map Buffer.free).getD 0

/-- The least of a number of attempts, of the cycles that what is within reach is enough for, and of those
whose yield there is room for. -/
def allowed (a : Arena) (i : Nat) (s : Stream) (attempts : Int) : Int :=
  ((s.recipe.inputs.map Part.product).map (fun p => a.reach i s.inputs p / (s.recipe.requiredOf p * s.mult)) ++
    (s.recipe.outputs.map Part.product).map fun q =>
      a.room i q / (s.recipe.yieldOf q * s.mult)).foldl min attempts

theorem le_allowed_iff (hs : s.OneWay i) {n attempts : Int} :
    n ≤ a.allowed i s attempts ↔ n ≤ attempts ∧
      (∀ p ∈ s.recipe.inputs.map Part.product, n * (s.recipe.requiredOf p * s.mult) ≤ a.reach i s.inputs p) ∧
      ∀ q ∈ s.recipe.outputs.map Part.product, n * (s.recipe.yieldOf q * s.mult) ≤ a.room i q := by
  unfold allowed
  rw [le_foldl_min, List.forall_mem_append]
  refine and_congr_right fun _ => and_congr (List.forall_mem_map.trans ?_) (List.forall_mem_map.trans ?_)
  · exact forall₂_congr fun p hp => Int.le_ediv_iff_mul_le (hs.required_pos hp)
  · exact forall₂_congr fun q hq => Int.le_ediv_iff_mul_le (hs.yield_pos hq)

theorem room_nonneg (a : Arena) (i : Nat) (q : Product) : 0 ≤ a.room i q := by
  unfold room
  cases a.buffer? i q with
  | none => exact Int.le_refl 0
  | some b => exact Int.le_max_right _ _

/-- Drawing changes who holds a product and not how much is within reach. -/
theorem reach_draw {us : Finset Nat} (hs : a.stream? i = some s) (hi : i ∉ us)
    (hslots : ∀ slot ∈ slots, slot.product = p → slot.supplier ∈ us) (hnonneg : ∀ u ∈ us, 0 ≤ a.held u p) :
    (∀ u ∈ us, 0 ≤ (a.draw m i slots).held u p) ∧
      (a.draw m i slots).held i p + ∑ u ∈ us, (a.draw m i slots).held u p =
        a.held i p + ∑ u ∈ us, a.held u p := by
  let Left (c : Arena) : Prop := (∀ u ∈ us, 0 ≤ c.held u p) ∧
    c.held i p + ∑ u ∈ us, c.held u p = a.held i p + ∑ u ∈ us, a.held u p
  suffices h : Kept [] a (a.draw m i slots) ∧ Left (a.draw m i slots) from h.2
  refine draw_induction (P := fun c => Kept [] a c ∧ Left c) (fun c hc slot hslot => ?_)
    ⟨Kept.refl [] a, hnonneg, rfl⟩
  obtain ⟨hkept, hleft, hsum⟩ := hc
  refine ⟨hkept.trans (Kept.drawSlot c i slot), ?_⟩
  cases Decidable.em (slot.product = p) with
  | inr hp =>
    have hheld (u : Nat) : (c.drawSlot m i slot).held u p = c.held u p := held_drawSlot_of_not fun h => hp h.1
    exact ⟨fun u hu => (hheld u).symm ▸ hleft u hu, by simp only [hheld]; exact hsum⟩
  | inl hp =>
    subst p
    have hmem := hslots slot hslot rfl
    obtain ⟨r, hr, _⟩ := hkept.stream i s hs
    obtain ⟨hgiver, _, hboth⟩ := held_drawSlot (m := m) hr (fun h => hi (h ▸ hmem)) (hleft _ hmem)
    have hother (u : Nat) (hu : u ∈ us) (hne : u ≠ slot.supplier) :
        (c.drawSlot m i slot).held u slot.product = c.held u slot.product :=
      held_drawSlot_of_not fun h => h.2.elim (fun hui => hi (hui ▸ hu)) hne
    refine ⟨fun u hu => ?_, ?_⟩
    · cases Decidable.em (u = slot.supplier) with
      | inl heq => exact heq ▸ hgiver
      | inr hne => exact (hother u hu hne).symm ▸ hleft u hu
    · have hrest : ∑ u ∈ us.erase slot.supplier, (c.drawSlot m i slot).held u slot.product =
          ∑ u ∈ us.erase slot.supplier, c.held u slot.product :=
        Finset.sum_congr rfl fun u hu => hother u (Finset.mem_of_mem_erase hu) (Finset.ne_of_mem_erase hu)
      rw [← Finset.add_sum_erase _ _ hmem] at hsum ⊢
      rw [hrest]
      omega

/-! ## Turns -/

/-- The stream at index `i` has room for what a cycle consumes, its buffers are in bounds, and so are those
of its suppliers. -/
structure Within (m : Int) (a : Arena) (i : Nat) (s : Stream) : Prop where
  stream : a.stream? i = some s
  inBounds : ∀ p ∈ s.recipe.inputs.map Part.product, (s.inputBuffer p m).InBounds
  fits : ∀ p ∈ s.recipe.inputs.map Part.product, s.recipe.requiredOf p * s.mult ≤ (s.inputBuffer p m).max
  stocked : ∀ slot ∈ s.inputs, 0 ≤ a.held slot.supplier slot.product

namespace Within

variable (hs : s.OneWay i)

theorem held_nonneg (h : a.Within m i s) : ∀ u ∈ sources s.inputs p, 0 ≤ a.held u p := by
  intro u hu
  obtain ⟨slot, hslot, rfl, rfl⟩ := mem_sources.1 hu
  exact h.stocked slot hslot

include hs in
theorem ne_of_mem_sources : ∀ u ∈ sources s.inputs p, u ≠ i := by
  intro u hu
  obtain ⟨slot, hslot, _, rfl⟩ := mem_sources.1 hu
  exact hs.apart slot hslot

theorem reach_nonneg (h : a.Within m i s) (hp : p ∈ s.recipe.inputs.map Part.product) :
    0 ≤ a.reach i s.inputs p := by
  have hoffered := offered_nonneg (h.held_nonneg (p := p))
  have hown := (h.inBounds p hp).current_nonneg
  rw [inputBuffer_current h.stream] at hown
  unfold reach
  omega

include hs in
theorem reach_draw (h : a.Within m i s) (p : Product) :
    (a.draw m i s.inputs).reach i s.inputs p = a.reach i s.inputs p :=
  (Arena.reach_draw h.stream (fun hi => ne_of_mem_sources hs i hi rfl)
    (fun slot hslot hp => mem_sources.2 ⟨slot, hslot, hp, rfl⟩) h.held_nonneg).2

include hs in
/-- What a stream consumes it has drawn, as far as that is within reach and as it has room. -/
theorem filled_current (h : a.Within m i s) (hp : p ∈ s.recipe.inputs.map Part.product) :
    (a.draw m i s.inputs).buffer? i p = some (filled m a s p) ∧
      (filled m a s p).max = (s.inputBuffer p m).max ∧
      (filled m a s p).current = min (a.reach i s.inputs p) (s.inputBuffer p m).max := by
  have hbuffer := buffer?_draw_offered (m := m) h.stream (ne_of_mem_sources hs) h.held_nonneg
    (.inl ((hs.slots p).2 hp))
  refine ⟨hbuffer, rfl, ?_⟩
  have hfree := (h.inBounds p hp).free_eq
  have hown := inputBuffer_current (p := p) (m := m) h.stream
  simp only [filled, Buffer.gain, reach]
  omega

include hs in
theorem buffer?_draw_of_output (hq : q ∈ s.recipe.outputs.map Part.product) (a : Arena) :
    (a.draw m i s.inputs).buffer? i q = a.buffer? i q := by
  refine buffer?_draw_of_product (fun slot hslot heq => ?_) a i i
  exact hs.disjoint q ((hs.slots q).1 (heq ▸ List.mem_map_of_mem hslot)) hq

include hs in
/-- After drawing a cycle can run if what it consumes was within reach, and if there is room for its yield. -/
theorem canProduce_iff (h : a.Within m i s) (ht : (a.draw m i s.inputs).stream? i = some t) :
    t.canProduce = true ↔
      (∀ p ∈ s.recipe.inputs.map Part.product, s.recipe.requiredOf p * s.mult ≤ a.reach i s.inputs p) ∧
      ∀ q ∈ s.recipe.outputs.map Part.product, s.recipe.yieldOf q * s.mult ≤ a.room i q := by
  have hsame := (Kept.draw a i s.inputs).same h.stream ht
  have hbuffer (p : Product) : t.buffers.get? p = (a.draw m i s.inputs).buffer? i p := by
    rw [buffer?, ht, Option.bind_some]
  rw [Stream.canProduce_iff_products, hsame.recipe, hsame.mult]
  refine and_congr (forall₂_congr fun p hp => ?_) (forall₂_congr fun q hq => ?_)
  · obtain ⟨hfilled, _, hcurrent⟩ := h.filled_current hs hp
    have hfits := h.fits p hp
    rw [hbuffer, hfilled]
    simp only [Option.some.injEq, exists_eq_left', hcurrent, le_min_iff, hfits, and_true]
  · have hpos := hs.yield_pos hq
    rw [hbuffer, buffer?_draw_of_output hs hq, room]
    cases a.buffer? i q with
    | none => simpa using hpos
    | some b => simp

include hs in
theorem draw (h : a.Within m i s) (ht : (a.draw m i s.inputs).stream? i = some t) :
    (a.draw m i s.inputs).Within m i t := by
  have hsame := (Kept.draw a i s.inputs).same h.stream ht
  have hinput (p : Product) (hp : p ∈ s.recipe.inputs.map Part.product) :
      t.inputBuffer p m = filled m a s p := by
    rw [inputBuffer_eq ht, (h.filled_current hs hp).1, Option.getD_some]
  refine ⟨ht, fun p hp => ?_, fun p hp => ?_, fun slot hslot => ?_⟩
  · rw [hsame.recipe] at hp
    obtain ⟨_, hmax, hcurrent⟩ := h.filled_current hs hp
    have hreach := h.reach_nonneg hp
    have hbounds := h.inBounds p hp
    have hlow := hbounds.current_nonneg
    have hhigh := hbounds.current_le
    rw [hinput p hp]
    constructor <;> omega
  · rw [hsame.recipe] at hp ⊢
    rw [hsame.mult, hinput p hp]
    exact h.fits p hp
  · rw [hsame.inputs] at hslot
    have hsources : ∀ other ∈ s.inputs, other.product = slot.product →
        other.supplier ∈ sources s.inputs slot.product :=
      fun other hother hp => mem_sources.2 ⟨other, hother, hp, rfl⟩
    exact (Arena.reach_draw (m := m) h.stream (fun hi => ne_of_mem_sources hs i hi rfl) hsources h.held_nonneg).1
      slot.supplier (hsources slot hslot rfl)

include hs in
theorem produce (h : a.Within m i s) (hproduce : s.produce? = some t) : (a.modify i fun _ => t).Within m i t := by
  have hsame := Stream.produce?_same hproduce
  have hbuffer (p : Product) (hp : p ∈ s.recipe.inputs.map Part.product) : ∃ b,
      s.inputBuffer p m = b ∧ s.recipe.requiredOf p * s.mult ≤ b.current ∧
      t.inputBuffer p m = b.gain (-(s.recipe.requiredOf p * s.mult)) := by
    obtain ⟨b, hb, henough⟩ :=
      (Stream.canProduce_iff_products.1 (Stream.canProduce_of_produce? hproduce)).1 p hp
    refine ⟨b, by rw [Stream.inputBuffer, hb, Option.getD_some], henough, ?_⟩
    have hnet := hs.net_of_input hp
    rw [Stream.net] at hnet
    rw [Stream.inputBuffer, Stream.get?_of_produce? hproduce, hb, hnet, Option.map_some, Option.getD_some]
  refine ⟨by rw [stream?_modify, if_pos rfl, h.stream]; rfl, fun p hp => ?_, fun p hp => ?_, fun slot hslot => ?_⟩
  · rw [hsame.recipe] at hp
    obtain ⟨b, hb, henough, hafter⟩ := hbuffer p hp
    have hbounds := hb ▸ h.inBounds p hp
    have hhigh := hbounds.current_le
    have hpos := hs.required_pos hp
    rw [hafter]
    constructor
    · rw [Buffer.gain_current]
      omega
    · rw [Buffer.gain_current, Buffer.gain_max]
      omega
  · rw [hsame.recipe] at hp ⊢
    obtain ⟨b, hb, _, hafter⟩ := hbuffer p hp
    rw [hsame.mult, hafter, Buffer.gain_max, ← hb]
    exact h.fits p hp
  · rw [hsame.inputs] at hslot
    rw [held_modify_of_ne (hs.apart slot hslot).symm]
    exact h.stocked slot hslot

include hs in
/-- A cycle takes its part of what is within reach. -/
theorem reach_produce (h : a.Within m i s) (drawn : (a.draw m i s.inputs).stream? i = some t)
    (produces : t.produce? = some t') (hp : p ∈ s.recipe.inputs.map Part.product) :
    ((a.draw m i s.inputs).modify i fun _ => t').reach i s.inputs p =
      a.reach i s.inputs p - s.recipe.requiredOf p * s.mult := by
  have hnet : (a.draw m i s.inputs).net i p = -(s.recipe.requiredOf p * s.mult) := by
    rw [(Kept.draw a i s.inputs).net, net_eq h.stream, hs.net_of_input hp]
  have hoffered : ((a.draw m i s.inputs).modify i fun _ => t').offered s.inputs p =
      (a.draw m i s.inputs).offered s.inputs p :=
    Finset.sum_congr rfl fun u hu => held_modify_of_ne (ne_of_mem_sources hs u hu).symm p
  rw [← h.reach_draw hs p, reach, hoffered, held_produce drawn produces, hnet, reach]
  omega

include hs in
/-- A cycle takes the room for what it yields. -/
theorem room_produce (h : a.Within m i s) (drawn : (a.draw m i s.inputs).stream? i = some t)
    (produces : t.produce? = some t') (hq : q ∈ s.recipe.outputs.map Part.product) :
    ((a.draw m i s.inputs).modify i fun _ => t').room i q = a.room i q - s.recipe.yieldOf q * s.mult := by
  have hsame := (Kept.draw a i s.inputs).same h.stream drawn
  have hnet := hs.net_of_output hq
  rw [Stream.net] at hnet
  have hpos := hs.yield_pos hq
  have hroom := ((h.canProduce_iff hs drawn).1 (Stream.canProduce_of_produce? produces)).2 q hq
  unfold room at hroom ⊢
  rw [buffer?_produce drawn produces, hsame.recipe, hsame.mult, hnet, buffer?_draw_of_output hs hq]
  cases hb : a.buffer? i q with
  | none =>
    rw [hb] at hroom
    exact absurd hpos (Int.not_lt.2 hroom)
  | some b =>
    rw [hb] at hroom
    simp only [Option.map_some, Option.getD_some, Buffer.free, Buffer.gain] at hroom ⊢
    omega

include hs in
/-- A turn that completes a cycle takes its part of what is within reach, and of the room for what it yields. -/
theorem turn (h : a.Within m i s) (hturn : Turn m i a k b) : ∃ t, b.Within m i t ∧ s.Same t ∧
    (∀ p ∈ s.recipe.inputs.map Part.product,
      b.reach i s.inputs p = a.reach i s.inputs p - k * (s.recipe.requiredOf p * s.mult)) ∧
    ∀ q ∈ s.recipe.outputs.map Part.product, b.room i q = a.room i q - k * (s.recipe.yieldOf q * s.mult) := by
  cases hturn with
  | @stalls s' t stream drawn lacks =>
    obtain rfl := Option.some.inj (stream.symm.trans h.stream)
    refine ⟨t, h.draw hs drawn, (Kept.draw a i s'.inputs).same stream drawn, fun p _ => ?_, fun q hq => ?_⟩
    · rw [h.reach_draw hs, Int.natCast_zero, Int.zero_mul, Int.sub_zero]
    · rw [room, buffer?_draw_of_output hs hq, room, Int.natCast_zero, Int.zero_mul, Int.sub_zero]
  | @runs s' t t' stream drawn produces =>
    obtain rfl := Option.some.inj (stream.symm.trans h.stream)
    have hsame := (Kept.draw a i s'.inputs).same stream drawn
    refine ⟨t', (h.draw hs drawn).produce (hs.of_same hsame) produces, hsame.trans (Stream.produce?_same produces),
      fun p hp => ?_, fun q hq => ?_⟩
    · rw [h.reach_produce hs drawn produces hp, Int.natCast_one, Int.one_mul]
    · rw [h.room_produce hs drawn produces hq, Int.natCast_one, Int.one_mul]

include hs in
theorem allowed_nonneg (h : a.Within m i s) {attempts : Int} (hattempts : 0 ≤ attempts) :
    0 ≤ a.allowed i s attempts := by
  refine (le_allowed_iff hs).2 ⟨hattempts, fun p hp => ?_, fun q _ => ?_⟩
  · rw [Int.zero_mul]
    exact h.reach_nonneg hp
  · rw [Int.zero_mul]
    exact room_nonneg a i q

include hs in
/-- A turn completes a cycle if that is allowed at all, and leaves one less to be allowed. -/
theorem allowed_succ (h : a.Within m i s) (hturn : Turn m i a k b) (hsame : s.Same t)
    (hreach : ∀ p ∈ s.recipe.inputs.map Part.product,
      b.reach i s.inputs p = a.reach i s.inputs p - k * (s.recipe.requiredOf p * s.mult))
    (hroom : ∀ q ∈ s.recipe.outputs.map Part.product,
      b.room i q = a.room i q - k * (s.recipe.yieldOf q * s.mult)) (n : Nat) :
    (k = 0 → a.allowed i s (n + 1 : Nat) = 0) ∧
      (k = 1 → a.allowed i s (n + 1 : Nat) = 1 + b.allowed i t n) := by
  obtain ⟨r, hr, _⟩ := (Kept.draw (m := m) a i s.inputs).stream i s h.stream
  have hone : k = 1 ↔ 1 ≤ a.allowed i s (n + 1 : Nat) := by
    rw [hturn.eq_one_iff h.stream hr, h.canProduce_iff hs hr, le_allowed_iff hs]
    simp only [Int.one_mul]
    exact ⟨fun h => ⟨by omega, h⟩, And.right⟩
  constructor
  · rintro rfl
    have hnone := mt hone.2 Nat.zero_ne_one
    have := h.allowed_nonneg hs (Int.natCast_nonneg (n + 1))
    omega
  · rintro rfl
    have hshift (j : Int) : 1 + j ≤ a.allowed i s (n + 1 : Nat) ↔ j ≤ b.allowed i t n := by
      rw [le_allowed_iff hs, le_allowed_iff (hs.of_same hsame), hsame.recipe, hsame.inputs, hsame.mult]
      refine and_congr (by omega) (and_congr (forall₂_congr fun p hp => ?_) (forall₂_congr fun q hq => ?_))
      · rw [hreach p hp, Int.add_mul]
        omega
      · rw [hroom q hq, Int.add_mul]
        omega
    have hbelow := (hshift (a.allowed i s (n + 1 : Nat) - 1)).1 (by omega)
    have habove := (hshift (b.allowed i t n)).2 (Int.le_refl _)
    omega

end Within

/-! ## Calls -/

/-- So many attempts complete the cycles that are allowed. -/
theorem exists_cycled_allowed (hs : s.OneWay i) (h : a.Within m i s) (hbound : a.SlotsBound i) (n : Nat) :
    ∃ (k : Nat) (b : Arena), Cycled m i n a (.ok k) b ∧ (k : Int) = a.allowed i s n ∧
      ∀ p, b.stock p = a.stock p + k * s.net p := by
  induction n generalizing a s with
  | zero =>
    refine ⟨0, a, Cycled.zero m i a, ?_, fun p => by rw [Int.natCast_zero, Int.zero_mul, Int.add_zero]⟩
    exact Int.le_antisymm (h.allowed_nonneg hs (Int.le_refl 0)) ((le_allowed_iff hs).1 (Int.le_refl _)).1
  | succ n ih =>
    obtain ⟨k, b, hturn⟩ := exists_turn (m := m) h.stream
    obtain ⟨t, ht, hsame, hreach, hroom⟩ := h.turn hs hturn
    obtain ⟨hstalls, hruns⟩ := h.allowed_succ hs hturn hsame hreach hroom n
    have hstock := hturn.stock h.stream
    cases hturn with
    | stalls stream drawn lacks =>
      exact ⟨0, _, (Turn.stalls stream drawn lacks).cycled_of_stalls hbound n, (hstalls rfl).symm, hstock⟩
    | runs stream drawn produces =>
      have hone := Turn.runs stream drawn produces
      obtain ⟨k, c, hcycled, hk, hrest⟩ := ih (hs.of_same hsame) ht (hbound.of_kept (Kept.turn hone))
      refine ⟨1 + k, c, hone.cycled_of_runs hbound hcycled, ?_, fun p => ?_⟩
      · rw [hruns rfl, ← hk]
        exact Int.natCast_add 1 k
      · have hnet : t.net p = s.net p := by rw [Stream.net, Stream.net, hsame.recipe, hsame.mult]
        rw [hrest, hstock, hnet]
        push_cast
        ring

theorem within_of_inBounds (hs : s.OneWay i) (hstream : a.stream? i = some s) (hbounds : a.InBounds)
    (hfits : ∀ p ∈ s.recipe.inputs.map Part.product,
      s.recipe.requiredOf p * s.mult ≤ (s.inputBuffer p m).max) : a.Within m i s where
  stream := hstream
  inBounds p hp := by
    have hcapacity := hfits p hp
    unfold Stream.inputBuffer at hcapacity ⊢
    cases hb : s.buffers.get? p with
    | some b => exact inBounds_iff.1 hbounds i s hstream p b hb
    | none =>
      rw [hb] at hcapacity
      exact Buffer.inBounds_empty ((hs.required_pos hp).le.trans hcapacity)
  fits := hfits
  stocked slot _ := by
    rw [held_eq_buffer?]
    cases hb : a.buffer? slot.supplier slot.product with
    | none => exact Int.le_refl 0
    | some b =>
      obtain ⟨u, hu, hget⟩ := buffer?_eq_some_iff.1 hb
      exact (inBounds_iff.1 hbounds _ u hu _ b hget).current_nonneg

/-- A call completes as many cycles as there are boundaries, unless what it consumes or the room for what it
yields is enough for fewer. Both count as they are when it begins: what the stream holds together with all
that its suppliers hold, and the room in its own buffers. -/
theorem advance_allowed {st : Logged Arena} {ticks period crossed next : Int} (hstream : st.state.stream? i = some s)
    (hs : s.OneWay i) (hparts : s.recipe.isInert = false) (hbounds : st.state.InBounds)
    (hfits : ∀ p ∈ s.recipe.inputs.map Part.product,
      s.recipe.requiredOf p * s.mult ≤ (s.inputBuffer p m).max)
    (hbound : st.state.SlotsBound i) (hperiod : s.recipe.period = .ok period)
    (hclock : Clock.advance (s.next.getD period) period ticks = .ok (crossed, next)) :
    let act := advance i ticks m
    AnswersUnlessLong st.least (act.outcome st) ∧
      ∃ k : Nat, (k : Int) = st.state.allowed i s crossed ∧
        (∀ p, (act.after st).state.stock p = st.state.stock p + k * s.net p) ∧
        ∀ report, act.outcome st = .ok report → report = reportOf s i k := by
  have hcrossed := Clock.advance_nonneg (Recipe.period_nonneg hperiod) hclock
  obtain ⟨k, b, hcycled, hk, hstock⟩ :=
    exists_cycled_allowed hs (within_of_inBounds hs hstream hbounds hfits) hbound crossed.toNat
  rw [Int.toNat_of_nonneg hcrossed] at hk
  have hattempts : (if s.recipe.isInert then 0 else crossed.toNat) = crossed.toNat := by
    rw [hparts]
    rfl
  have hwp := wp_advance hstream hperiod hclock (hattempts.symm ▸ hcycled)
  refine ⟨fun fault hfault => (hwp.of_outcome_error hfault).2.resolve_left nofun, k, hk, fun p => ?_, ?_⟩
  · have hstate := (hwp.weaken (fun _ _ h => h.1.1) fun _ _ h => h.1.1).after
    rw [hstate, stock_withNext, hstock]
  · intro report hreport
    obtain ⟨_, j, hj, rfl⟩ := hwp.of_outcome_ok hreport
    rw [Except.ok.inj hj]

/-- A smelter that makes an ingot of two ore, and takes one of them from each of two pits. -/
def pitSmelter : Stream :=
  Stream.fresh (Recipe.every 1 Int.one_pos [⟨⟨0, 0⟩, 1⟩, ⟨⟨0, 0⟩, 1⟩] [⟨⟨1, 0⟩, 1⟩])
    [⟨⟨0, 0⟩, 0⟩, ⟨⟨0, 0⟩, 1⟩] 1 8

/-- The two pits, with three ore and with four, and the smelter. -/
def twoPits : Arena :=
  ⟨[(Stream.fresh (Recipe.every 1 Int.one_pos [] [⟨⟨0, 0⟩, 1⟩]) [] 1 8).gain ⟨0, 0⟩ 3,
    (Stream.fresh (Recipe.every 1 Int.one_pos [] [⟨⟨0, 0⟩, 1⟩]) [] 1 8).gain ⟨0, 0⟩ 4,
    pitSmelter]⟩

/-- In ten ticks it makes three ingots of the seven ore, though it has room for two ore at a time. -/
theorem advance_allowed_twoPits : ∃ report,
    (advance 2 10 1).outcome { state := twoPits, least := .info } = .ok report ∧
      report.produced.getD ⟨1, 0⟩ 0 = 3 := by
  have hs : pitSmelter.OneWay 2 :=
    ⟨by decide, ⟨by decide, by decide⟩, fun _ => Iff.rfl, by decide, by decide⟩
  have hbound : twoPits.SlotsBound 2 := by
    intro r hr
    obtain rfl := Option.some.inj hr
    decide
  obtain ⟨hanswers, k, hk, -, hreport⟩ := @advance_allowed 2 pitSmelter 1
    { state := twoPits, least := .info } 10 1 10 1 rfl hs (by decide) (by decide) (by decide) hbound rfl rfl
  obtain ⟨report, h⟩ := hanswers.exists_ok (by decide)
  have hallowed : twoPits.allowed 2 pitSmelter 10 = 3 := by decide
  have hthree : k = 3 := Int.ofNat.inj (hk.trans hallowed)
  refine ⟨report, h, ?_⟩
  rw [hreport report h, hthree]
  rfl

end Arena

end Conveyor
