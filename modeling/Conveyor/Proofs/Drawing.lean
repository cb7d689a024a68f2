-- SUMMARY: How much a stream draws of a product: what the streams that supply it hold together, as far as there is room.
import Conveyor.Proofs.Lag

/-!
# What is drawn

A product may come along several slots, from several streams, and one stream may stand behind several of
these slots. Drawing goes through them in order and takes what it finds, so the order decides who gives
how much. It does not decide how much comes together: what all of the streams hold, or what there is room
for, if that is less.
-/

namespace Conveyor

namespace Arena

variable {a b : Arena} {i k u : Nat} {s : Stream} {slot : Slot} {slots : List Slot} {m : Int} {p : Product}

/-! ## Sources -/

/-- The streams that some slots bind a product to. -/
def sources (slots : List Slot) (p : Product) : Finset Nat :=
  ((slots.filter (·.product = p)).map Slot.supplier).toFinset

theorem mem_sources : u ∈ sources slots p ↔ ∃ slot ∈ slots, slot.product = p ∧ slot.supplier = u := by
  simp [sources, and_assoc]

theorem sources_cons (slot : Slot) (slots : List Slot) (p : Product) :
    sources (slot :: slots) p =
      if slot.product = p then insert slot.supplier (sources slots p) else sources slots p := by
  unfold sources
  split <;> simp [*]

/-- Units of a product that the streams behind some slots hold together. -/
def offered (a : Arena) (slots : List Slot) (p : Product) : Int := ∑ u ∈ sources slots p, a.held u p

theorem offered_nonneg (h : ∀ u ∈ sources slots p, 0 ≤ a.held u p) : 0 ≤ a.offered slots p :=
  Finset.sum_nonneg h

theorem le_offered (h : ∀ u ∈ sources slots p, 0 ≤ a.held u p) (hu : u ∈ sources slots p) :
    a.held u p ≤ a.offered slots p :=
  Finset.single_le_sum h hu

/-! ## One slot -/

/-- Units that stream `s` draws along a slot. -/
def drawnAlong (m : Int) (a : Arena) (s : Stream) (slot : Slot) : Int :=
  min (a.held slot.supplier slot.product) (s.inputBuffer slot.product m).free

theorem drawSlot_drawn (hs : a.stream? i = some s) (hu : slot.supplier ≠ i) :
    (a.drawSlot m i slot).buffer? i slot.product =
        some ((s.inputBuffer slot.product m).gain (drawnAlong m a s slot)) ∧
      (a.drawSlot m i slot).held slot.supplier slot.product =
        a.held slot.supplier slot.product - drawnAlong m a s slot := by
  cases hsource : a.buffer? slot.supplier slot.product with
  | some source =>
    obtain ⟨htaken, hleft⟩ := buffer?_drawSlot (m := m) hs hu hsource
    have hunits : drawnAlong m a s slot = (s.inputBuffer slot.product m).movable source := by
      rw [drawnAlong, held_of_buffer? hsource, Buffer.movable]
    rw [hunits, held_of_buffer? hleft, held_of_buffer? hsource]
    exact ⟨htaken, Int.add_neg_eq_sub⟩
  | none =>
    have hnothing : drawnAlong m a s slot = 0 := by
      rw [drawnAlong, held_eq_buffer?, hsource]
      exact Int.min_eq_left (Int.le_max_right _ _)
    rw [hnothing, drawSlot_of_none hu hsource, buffer?_openInput, if_pos rfl, hs, held_openInput, Buffer.gain_zero,
      Int.sub_zero]
    exact ⟨rfl, rfl⟩

/-! ## All slots -/

/-- What one draw leaves of what is offered along the other slots. A stream that stands behind one of them
too has less to give then. -/
theorem offered_drawSlot (hs : a.stream? i = some s) (hne : ∀ u ∈ sources (slot :: slots) slot.product, u ≠ i) :
    (a.drawSlot m i slot).offered slots slot.product =
      a.offered (slot :: slots) slot.product -
        if slot.supplier ∈ sources slots slot.product then drawnAlong m a s slot
        else a.held slot.supplier slot.product := by
  rw [sources_cons, if_pos rfl] at hne
  have hu : slot.supplier ≠ i := hne _ (Finset.mem_insert_self _ _)
  have hothers {T : Finset Nat} (hT : T ⊆ sources slots slot.product) (hnot : slot.supplier ∉ T) :
      ∑ u ∈ T, (a.drawSlot m i slot).held u slot.product = ∑ u ∈ T, a.held u slot.product := by
    refine Finset.sum_congr rfl fun u hmem => held_drawSlot_of_not ?_
    rintro ⟨-, rfl | rfl⟩
    · exact hne _ (Finset.mem_insert_of_mem (hT hmem)) rfl
    · exact hnot hmem
  unfold offered
  rw [sources_cons, if_pos rfl]
  split
  next hmem =>
    rw [Finset.insert_eq_of_mem hmem, ← Finset.add_sum_erase _ _ hmem, ← Finset.add_sum_erase _ _ hmem,
      hothers (Finset.erase_subset _ _) (Finset.notMem_erase _ _), (drawSlot_drawn hs hu).2]
    omega
  next hmem =>
    rw [Finset.sum_insert hmem, hothers (Finset.Subset.refl _) hmem]
    omega

/-- What the other slots offer is there after one draw, too. -/
theorem held_drawSlot_nonneg (hs : a.stream? i = some s) (hne : ∀ u ∈ sources (slot :: slots) slot.product, u ≠ i)
    (hnonneg : ∀ u ∈ sources (slot :: slots) slot.product, 0 ≤ a.held u slot.product) :
    ∀ u ∈ sources slots slot.product, 0 ≤ (a.drawSlot m i slot).held u slot.product := by
  intro u hu
  have hmem : u ∈ sources (slot :: slots) slot.product := by
    rw [sources_cons, if_pos rfl]
    exact Finset.mem_insert_of_mem hu
  cases Decidable.em (u = slot.supplier) with
  | inl heq =>
    subst u
    exact (held_drawSlot hs (hne _ hmem) (hnonneg _ hmem)).1
  | inr hother =>
    have hnot : ¬ (slot.product = slot.product ∧ (u = i ∨ u = slot.supplier)) := fun h =>
      h.2.elim (hne u hmem) hother
    rw [held_drawSlot_of_not hnot]
    exact hnonneg u hmem

/-- What is drawn along one slot and along the others after it is what is offered, as far as there is room. -/
theorem drawnAlong_add_offered (hs : a.stream? i = some s)
    (hne : ∀ u ∈ sources (slot :: slots) slot.product, u ≠ i)
    (hnonneg : ∀ u ∈ sources (slot :: slots) slot.product, 0 ≤ a.held u slot.product) :
    drawnAlong m a s slot + min ((a.drawSlot m i slot).offered slots slot.product)
        ((s.inputBuffer slot.product m).gain (drawnAlong m a s slot)).free =
      min (a.offered (slot :: slots) slot.product) (s.inputBuffer slot.product m).free := by
  have hgive := hnonneg slot.supplier (mem_sources.2 ⟨slot, List.mem_cons_self, rfl, rfl⟩)
  have hrest := offered_nonneg (held_drawSlot_nonneg (m := m) hs hne hnonneg)
  have hoffered := offered_drawSlot (m := m) hs hne
  have hunits : drawnAlong m a s slot = min (a.held slot.supplier slot.product) (s.inputBuffer slot.product m).free :=
    rfl
  simp only [Buffer.free, Buffer.gain] at hunits ⊢
  split at hoffered <;> omega

/-- Drawing one product leaves what is offered of another. -/
theorem offered_drawSlot_of_product (hp : slot.product ≠ p) (a : Arena) (i : Nat) (slots : List Slot) :
    (a.drawSlot m i slot).offered slots p = a.offered (slot :: slots) p := by
  rw [offered, offered, sources_cons, if_neg hp]
  exact Finset.sum_congr rfl fun u _ => held_of_buffer?_eq (buffer?_drawSlot_of_product hp a i u)

theorem inputBuffer_drawSlot_of_product {t : Stream} (hp : slot.product ≠ p) (hs : a.stream? i = some s)
    (ht : (a.drawSlot m i slot).stream? i = some t) : t.inputBuffer p m = s.inputBuffer p m := by
  have hsame := (Kept.drawSlot a i slot).same hs ht
  rw [inputBuffer_eq ht, inputBuffer_eq hs, buffer?_drawSlot_of_product hp, hsame.recipe, hsame.mult]

/-- Whatever the order of the slots is, a stream draws what is offered of a product, as far as it has room
for it. -/
theorem buffer?_draw_offered (hs : a.stream? i = some s) (hne : ∀ u ∈ sources slots p, u ≠ i)
    (hnonneg : ∀ u ∈ sources slots p, 0 ≤ a.held u p)
    (hsome : p ∈ slots.map Slot.product ∨ (a.buffer? i p).isSome = true) :
    (a.draw m i slots).buffer? i p =
      some ((s.inputBuffer p m).gain (min (a.offered slots p) (s.inputBuffer p m).free)) := by
  induction slots generalizing a s with
  | nil =>
    obtain ⟨b, hb⟩ := Option.isSome_iff_exists.1 (hsome.resolve_left List.not_mem_nil)
    have hnothing : min (a.offered [] p) (s.inputBuffer p m).free = 0 := Int.min_eq_left (Int.le_max_right _ _)
    rw [hnothing, Buffer.gain_zero, inputBuffer_eq hs, hb, Option.getD_some]
    exact hb
  | cons slot slots ih =>
    obtain ⟨t, ht, _⟩ := (Kept.drawSlot (m := m) a i slot).stream i s hs
    rw [draw_cons]
    cases Decidable.em (slot.product = p) with
    | inr hp =>
      have hsources : sources (slot :: slots) p = sources slots p := by rw [sources_cons, if_neg hp]
      have hheld (u : Nat) : (a.drawSlot m i slot).held u p = a.held u p :=
        held_of_buffer?_eq (buffer?_drawSlot_of_product hp a i u)
      rw [hsources] at hne hnonneg
      rw [← offered_drawSlot_of_product (m := m) hp a i, ← inputBuffer_drawSlot_of_product hp hs ht]
      refine ih ht hne (fun u hu => (hheld u).symm ▸ hnonneg u hu) (hsome.imp (fun hmem => ?_) fun hbuffer => ?_)
      · exact (List.mem_cons.1 hmem).resolve_left (Ne.symm hp)
      · rwa [buffer?_drawSlot_of_product hp]
    | inl hp =>
      subst p
      have hsub : sources slots slot.product ⊆ sources (slot :: slots) slot.product := by
        rw [sources_cons, if_pos rfl]
        exact Finset.subset_insert _ _
      have hslot : slot.supplier ∈ sources (slot :: slots) slot.product :=
        mem_sources.2 ⟨slot, List.mem_cons_self, rfl, rfl⟩
      have hdrawn := (drawSlot_drawn (m := m) hs (hne _ hslot)).1
      have hinput : t.inputBuffer slot.product m = (s.inputBuffer slot.product m).gain (drawnAlong m a s slot) := by
        rw [inputBuffer_eq ht, hdrawn, Option.getD_some]
      rw [ih ht (fun u hu => hne u (hsub hu)) (held_drawSlot_nonneg hs hne hnonneg) (.inr (by rw [hdrawn]; rfl)),
        hinput, Buffer.gain_gain, drawnAlong_add_offered hs hne hnonneg]

/-! ## Stock of a turn -/

theorem stock_draw (m : Int) (a : Arena) (i : Nat) (slots : List Slot) (p : Product) :
    (a.draw m i slots).stock p = a.stock p :=
  draw_induction (P := fun b => b.stock p = a.stock p)
    (fun b hb slot _ => by rw [drawSlot, stock_transfer, stock_openInput, hb]) rfl

/-- A turn changes the stock by what its cycle makes, less what it uses up. -/
theorem Turn.stock (h : Turn m i a k b) (hs : a.stream? i = some s) (p : Product) :
    b.stock p = a.stock p + k * s.net p := by
  cases h with
  | @stalls s' => rw [stock_draw, Int.natCast_zero, Int.zero_mul, Int.add_zero]
  | @runs s' t t' stream drawn produces =>
    obtain rfl := Option.some.inj (hs.symm.trans stream)
    have hsame := (Kept.draw a i s.inputs).same hs drawn
    have hnet : t.net p = s.net p := by rw [Stream.net, Stream.net, hsame.recipe, hsame.mult]
    rw [stock_modify drawn, stock_draw, Stream.stock_of_produce? produces, hnet, Int.natCast_one, Int.one_mul]
    omega

theorem stock_withNext (a : Arena) (i : Nat) (next : Int) (p : Product) : (a.withNext i next).stock p = a.stock p :=
  stock_modify_of_eq fun _ => rfl

/-- A turn completes a cycle if one can run after drawing. -/
theorem Turn.eq_one_iff (h : Turn m i a k b) (hs : a.stream? i = some s) {t : Stream}
    (ht : (a.draw m i s.inputs).stream? i = some t) : k = 1 ↔ t.canProduce = true := by
  cases h with
  | @stalls s' t' stream drawn lacks =>
    obtain rfl := Option.some.inj (hs.symm.trans stream)
    obtain rfl := Option.some.inj (ht.symm.trans drawn)
    refine ⟨fun h => absurd h Nat.zero_ne_one, fun h => ?_⟩
    obtain ⟨_, hproduces⟩ := Stream.exists_produce? h
    cases lacks.symm.trans hproduces
  | @runs s' t' t'' stream drawn produces =>
    obtain rfl := Option.some.inj (hs.symm.trans stream)
    obtain rfl := Option.some.inj (ht.symm.trans drawn)
    exact ⟨fun _ => Stream.canProduce_of_produce? produces, fun _ => rfl⟩

/-! ## Cycles -/

/-- The buffer of a product after stream `s` has drawn along all of its slots. -/
def filled (m : Int) (a : Arena) (s : Stream) (p : Product) : Buffer :=
  (s.inputBuffer p m).gain (min (a.offered s.inputs p) (s.inputBuffer p m).free)

/-- A cycle can run if that is enough of what it takes, and if that leaves room enough for what it yields. -/
theorem canProduce_draw {t : Stream} (hs : a.stream? i = some s) (ht : (a.draw m i s.inputs).stream? i = some t)
    (hslots : s.inputs.map Slot.product = s.recipe.inputs.map Part.product)
    (hne : ∀ slot ∈ s.inputs, slot.supplier ≠ i)
    (hnonneg : ∀ slot ∈ s.inputs, 0 ≤ a.held slot.supplier slot.product)
    (houtputs : ∀ p ∈ s.recipe.outputs.map Part.product, (a.buffer? i p).isSome = true) :
    t.canProduce = true ↔
      (∀ p ∈ s.recipe.inputs.map Part.product, s.recipe.requiredOf p * s.mult ≤ (filled m a s p).current) ∧
      ∀ p ∈ s.recipe.outputs.map Part.product, s.recipe.yieldOf p * s.mult ≤ (filled m a s p).free := by
  have hsame := (Kept.draw a i s.inputs).same hs ht
  have hfilled (p : Product) (hp : p ∈ s.inputs.map Slot.product ∨ (a.buffer? i p).isSome = true) :
      t.buffers.get? p = some (filled m a s p) := by
    have hbuffer := buffer?_draw_offered (m := m) (p := p) hs ?_ ?_ hp
    · rwa [buffer?, ht] at hbuffer
    · intro u hu
      obtain ⟨slot, hslot, _, rfl⟩ := mem_sources.1 hu
      exact hne slot hslot
    · intro u hu
      obtain ⟨slot, hslot, rfl, rfl⟩ := mem_sources.1 hu
      exact hnonneg slot hslot
  rw [Stream.canProduce_iff_products, hsame.recipe, hsame.mult]
  refine and_congr (forall₂_congr fun p hp => ?_) (forall₂_congr fun p hp => ?_)
  · rw [hfilled p (.inl (hslots ▸ hp))]
    simp only [Option.some.injEq, exists_eq_left']
  · rw [hfilled p (.inr (houtputs p hp))]
    simp only [Option.some.injEq, exists_eq_left']

end Arena

end Conveyor
