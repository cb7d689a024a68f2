-- SUMMARY: Pulling takes all that fits, loses nothing, touches no buffer but those at its slots, and leaves nothing to pull.
import Conveyor.Proofs.Turn

/-!
# Greedy pulling

Slots are drawn along one after another, and they may share the supplier, the product or both. A slot that
has been drawn along is exhausted, and stays so while the other slots are drawn along: that is the invariant
which carries the argument. What is exhausted gives nothing more, so to pull again changes nothing. A slot
that is bound to no stream stops the pull, and stops it at the same place when it is done again.
-/

namespace Conveyor

namespace Arena

variable {a b : Arena} {i j : Nat} {s : Stream} {slot other : Slot} {slots done rest : List Slot} {m : Int}
  {x : Except Fault Unit}

/-! ## Stock stays above nothing -/

theorem nonNegative_iff : a.NonNegative ↔ ∀ j p b, a.buffer? j p = some b → 0 ≤ b.current := by
  constructor
  · intro h j p b hb
    obtain ⟨s, hs, hb⟩ := buffer?_eq_some_iff.1 hb
    exact h s (List.mem_of_getElem? hs) b (Table.mem_values_iff.2 ⟨p, hb⟩)
  · intro h s hs b hb
    obtain ⟨j, hj⟩ := List.mem_iff_getElem?.1 hs
    obtain ⟨p, hp⟩ := Table.mem_values_iff.1 hb
    exact h j p b (buffer?_eq_some_iff.2 ⟨s, hj, hp⟩)

/-- A buffer that is opened is empty. -/
theorem NonNegative.openInput (h : a.NonNegative) (i : Nat) (p : Product) (m : Int) :
    (a.openInput i p m).NonNegative := by
  rw [nonNegative_iff] at h ⊢
  intro j q b hb
  cases Decidable.em (i = j) with
  | inr hij =>
    rw [Arena.openInput, buffer?_modify_of_ne hij] at hb
    exact h j q b hb
  | inl hij =>
    subst j
    rw [buffer?_openInput] at hb
    split at hb
    · obtain ⟨s, hs, rfl⟩ := Option.map_eq_some_iff.1 hb
      rw [inputBuffer_eq hs]
      cases hp : a.buffer? i p with
      | none => exact Int.le_refl 0
      | some c => exact h i p c hp
    · exact h i q b hb

/-- No more is taken out of a buffer than is in it. -/
theorem NonNegative.transfer (h : a.NonNegative) (i u : Nat) (p : Product) : (a.transfer i u p).NonNegative := by
  obtain ⟨heq, _⟩ | ⟨hu, dest, source, hdest, hsource⟩ := transfer_cases a i u p
  · rwa [heq]
  rw [nonNegative_iff] at h ⊢
  have hown := h i p dest hdest
  have hgiven := h u p source hsource
  intro j q b hb
  rw [buffer?_transfer hu hdest hsource] at hb
  split at hb
  · obtain rfl := Option.some.inj hb
    simp only [Buffer.gain, Buffer.movable, Buffer.free]
    omega
  split at hb
  · obtain rfl := Option.some.inj hb
    simp only [Buffer.gain, Buffer.movable, Buffer.free]
    omega
  · exact h j q b hb

/-! ## What is exhausted -/

/-- What has been drawn along is exhausted. -/
theorem exhausted_drawSlot (ha : a.Stocked i) (hs : a.stream? i = some s) :
    (a.drawSlot m i slot).Exhausted i slot := by
  have hdest : (a.openInput i slot.product m).buffer? i slot.product = some (s.inputBuffer slot.product m) := by
    rw [buffer?_openInput, if_pos rfl, hs]
    rfl
  exact exhausted_transfer (ha.modify _) hdest

theorem Exhausted.drawSlot (h : a.Exhausted i slot) (ha : a.Stocked i) : (a.drawSlot m i other).Exhausted i slot :=
  (h.openInput other.product).transfer (ha.modify _) other.supplier other.product

/-- Along an exhausted slot nothing is drawn. -/
theorem Exhausted.drawSlot_eq_self (h : a.Exhausted i slot) : a.drawSlot m i slot = a := by
  obtain ⟨dest, hdest, hexhausted⟩ := h
  rw [Arena.drawSlot, openInput_eq_self hdest]
  cases Decidable.em (slot.supplier = i) with
  | inl hself => rw [hself, transfer_self]
  | inr hne =>
    refine transfer_eq_self fun dest' source hdest' hsource => ?_
    obtain rfl := Option.some.inj (hdest.symm.trans hdest')
    exact hexhausted hne source hsource

theorem draw_eq_self (h : ∀ slot ∈ slots, a.Exhausted i slot) : a.draw m i slots = a := by
  refine draw_induction (P := fun b => b = a) (fun b hb slot hslot => ?_) rfl
  rw [hb, (h slot hslot).drawSlot_eq_self]

/-- Nothing can be moved only where there is no room, or where there is nothing. -/
theorem Exhausted.free_or_empty (h : a.Exhausted i slot) (ha : a.NonNegative) (hne : slot.supplier ≠ i) :
    ∃ dest, a.buffer? i slot.product = some dest ∧
      (dest.free = 0 ∨ ∀ source, a.buffer? slot.supplier slot.product = some source → source.current = 0) := by
  obtain ⟨dest, hdest, hexhausted⟩ := h
  refine ⟨dest, hdest, Decidable.or_iff_not_imp_left.2 fun hroom source hsource => ?_⟩
  have hnonneg := nonNegative_iff.1 ha slot.supplier slot.product source hsource
  have hmoved := hexhausted hne source hsource
  simp only [Buffer.movable, Buffer.free] at hmoved hroom
  omega

/-! ## What changes hands -/

/-- From `a` to `b` nothing has happened but that stream `i` has drawn along some of the slots. -/
structure Pulled (i : Nat) (slots : List Slot) (a b : Arena) : Prop where
  kept : Kept [] a b
  stock : ∀ p, b.stock p = a.stock p
  nonNegative : b.NonNegative
  others : ∀ j p, (∀ slot ∈ slots, slot.product = p → j ≠ i ∧ j ≠ slot.supplier) → b.buffer? j p = a.buffer? j p

namespace Pulled

theorem refl (ha : a.NonNegative) (i : Nat) (slots : List Slot) : Pulled i slots a a :=
  ⟨Kept.refl [] a, fun _ => rfl, ha, fun _ _ _ => rfl⟩

theorem openInput (h : Pulled i slots a b) (hslot : slot ∈ slots) (m : Int) :
    Pulled i slots a (b.openInput i slot.product m) where
  kept := h.kept.trans (Kept.openInput b i slot.product m)
  stock p := (stock_openInput b i slot.product p m).trans (h.stock p)
  nonNegative := h.nonNegative.openInput i slot.product m
  others j p hnot := by
    rw [← h.others j p hnot]
    cases Decidable.em (i = j) with
    | inr hij => exact buffer?_modify_of_ne hij
    | inl hij =>
      subst j
      rw [buffer?_openInput, if_neg fun hp => (hnot slot hslot hp).1 rfl]

theorem drawSlot (h : Pulled i slots a b) (hslot : slot ∈ slots) (m : Int) :
    Pulled i slots a (b.drawSlot m i slot) where
  kept := h.kept.trans (Kept.drawSlot b i slot)
  stock p := by rw [Arena.drawSlot, stock_transfer, stock_openInput, h.stock]
  nonNegative := (h.nonNegative.openInput i slot.product m).transfer i slot.supplier slot.product
  others j p hnot := by
    rw [buffer?_drawSlot_of_not, h.others j p hnot]
    rintro ⟨hp, hends⟩
    obtain ⟨hi, hu⟩ := hnot slot hslot hp
    exact hends.elim hi hu

theorem draw (ha : a.NonNegative) (hsub : ∀ slot ∈ done, slot ∈ slots) (m : Int) :
    Pulled i slots a (a.draw m i done) :=
  draw_induction (fun _ hb slot hslot => hb.drawSlot (hsub slot hslot) m) (refl ha i slots)

end Pulled

theorem Exhausted.draw (h : a.Exhausted i slot) (ha : a.NonNegative) : (a.draw m i slots).Exhausted i slot := by
  suffices hboth : (a.draw m i slots).Stocked i ∧ (a.draw m i slots).Exhausted i slot from hboth.2
  exact draw_induction (P := fun b => b.Stocked i ∧ b.Exhausted i slot)
    (fun _ hb _ _ => ⟨(hb.1.modify _).transfer _ _, hb.2.drawSlot hb.1⟩) ⟨ha.stocked i, h⟩

/-- The slots that have been drawn along are exhausted, whatever came after them. -/
theorem exhausted_draw (ha : a.NonNegative) (hs : a.stream? i = some s) :
    ∀ slot ∈ slots, (a.draw m i slots).Exhausted i slot := by
  induction slots generalizing a s with
  | nil => exact fun _ hslot => absurd hslot List.not_mem_nil
  | cons slot slots ih =>
    have hdrawn := (Pulled.refl ha i [slot]).drawSlot (List.mem_singleton_self slot) m
    obtain ⟨t, ht, _⟩ := hdrawn.kept.stream i s hs
    refine List.forall_mem_cons.2 ⟨?_, ih hdrawn.nonNegative ht⟩
    exact (exhausted_drawSlot (ha.stocked i) hs).draw hdrawn.nonNegative

/-! ## How a pull ends -/

theorem ends_pull (hs : a.stream? i = some s) (h : Action.Ends (s.inputs.forM (pullSlot m i)) a x b) :
    Action.Ends (pull m i) a x b := by
  refine Action.Ends.bind_current ?_
  rw [stream_of_eq_some hs]
  exact Action.Ends.bind_lift h

theorem ends_forM_pullSlot (h : ∀ slot ∈ slots, slot.supplier < a.size) :
    Action.Ends (slots.forM (pullSlot m i)) a (.ok ()) (a.draw m i slots) := by
  induction slots generalizing a with
  | nil => exact Action.Ends.pure ()
  | cons slot slots ih =>
    obtain ⟨hslot, hslots⟩ := List.forall_mem_cons.1 h
    refine (ends_pullSlot hslot).bind (ih fun other hother => ?_)
    exact (Kept.drawSlot a i slot).size.symm ▸ hslots other hother

/-- The first slot that is bound to no stream stops the pull. -/
theorem ends_forM_pullSlot_of_unbound (hdone : ∀ slot ∈ done, slot.supplier < a.size)
    (hslot : a.size ≤ slot.supplier) :
    Action.Ends ((done ++ slot :: rest).forM (pullSlot m i)) a (.error .noSuchIndex)
      ((a.draw m i done).openInput i slot.product m) := by
  induction done generalizing a with
  | nil => exact (ends_pullSlot_of_unbound hslot).bind_error
  | cons first done ih =>
    obtain ⟨hfirst, hdone⟩ := List.forall_mem_cons.1 hdone
    have hsize := (Kept.drawSlot (m := m) a i first).size
    exact (ends_pullSlot hfirst).bind (ih (fun other hother => hsize.symm ▸ hdone other hother) (hsize.symm ▸ hslot))

/-- All slots are bound, or there is a first one that is not. -/
theorem bound_or_exists_unbound (a : Arena) (slots : List Slot) :
    (∀ slot ∈ slots, slot.supplier < a.size) ∨
      ∃ done slot rest, slots = done ++ slot :: rest ∧ (∀ slot ∈ done, slot.supplier < a.size) ∧
        a.size ≤ slot.supplier := by
  induction slots with
  | nil => exact .inl fun _ hslot => absurd hslot List.not_mem_nil
  | cons slot slots ih =>
    cases Nat.lt_or_ge slot.supplier a.size with
    | inr hge => exact .inr ⟨[], slot, slots, rfl, fun _ hslot => absurd hslot List.not_mem_nil, hge⟩
    | inl hlt =>
      obtain hall | ⟨done, first, rest, rfl, hdone, hge⟩ := ih
      · exact .inl (List.forall_mem_cons.2 ⟨hlt, hall⟩)
      · exact .inr ⟨slot :: done, first, rest, rfl, List.forall_mem_cons.2 ⟨hlt, hdone⟩, hge⟩

/-- A pull along bound slots exhausts them, and done again it ends the same way in the same arena. -/
theorem ends_pull_of_bound (hs : a.stream? i = some s) (ha : a.NonNegative)
    (hbound : ∀ slot ∈ s.inputs, slot.supplier < a.size) :
    Action.Ends (pull m i) a (.ok ()) (a.draw m i s.inputs) ∧
      Action.Ends (pull m i) (a.draw m i s.inputs) (.ok ()) (a.draw m i s.inputs) := by
  have hpulled : Pulled i s.inputs a (a.draw m i s.inputs) := Pulled.draw ha (fun _ h => h) m
  have hagain : Action.Ends (s.inputs.forM (pullSlot m i)) (a.draw m i s.inputs) (.ok ())
      ((a.draw m i s.inputs).draw m i s.inputs) :=
    ends_forM_pullSlot fun slot hslot => hpulled.kept.size.symm ▸ hbound slot hslot
  rw [draw_eq_self (exhausted_draw ha hs)] at hagain
  obtain ⟨t, ht, hsame, _⟩ := hpulled.kept.stream i s hs
  refine ⟨ends_pull hs (ends_forM_pullSlot hbound), ends_pull ht ?_⟩
  rwa [hsame.inputs]

/-- So it is with a pull that is stopped at a slot. -/
theorem ends_pull_of_unbound (hs : a.stream? i = some s) (ha : a.NonNegative)
    (hinputs : s.inputs = done ++ slot :: rest) (hdone : ∀ slot ∈ done, slot.supplier < a.size)
    (hunbound : a.size ≤ slot.supplier) :
    ∃ b, Action.Ends (pull m i) a (.error .noSuchIndex) b ∧ Action.Ends (pull m i) b (.error .noSuchIndex) b ∧
      Pulled i s.inputs a b := by
  have hmem : slot ∈ s.inputs := hinputs ▸ List.mem_append_right done List.mem_cons_self
  have hdrawn : Pulled i s.inputs a (a.draw m i done) :=
    Pulled.draw ha (fun _ h => hinputs ▸ List.mem_append_left _ h) m
  have hpulled := hdrawn.openInput hmem m
  have hexhausted : ∀ other ∈ done, ((a.draw m i done).openInput i slot.product m).Exhausted i other :=
    fun other hother => (exhausted_draw ha hs other hother).openInput slot.product
  obtain ⟨r, hr, _⟩ := hdrawn.kept.stream i s hs
  have hopened : ((a.draw m i done).openInput i slot.product m).buffer? i slot.product =
      some (r.inputBuffer slot.product m) := by
    rw [buffer?_openInput, if_pos rfl, hr]
    rfl
  let b := (a.draw m i done).openInput i slot.product m
  have hagain : Action.Ends ((done ++ slot :: rest).forM (pullSlot m i)) b (.error .noSuchIndex)
      ((b.draw m i done).openInput i slot.product m) :=
    ends_forM_pullSlot_of_unbound (fun other hother => hpulled.kept.size.symm ▸ hdone other hother)
      (hpulled.kept.size.symm ▸ hunbound)
  rw [draw_eq_self hexhausted, openInput_eq_self hopened] at hagain
  obtain ⟨t, ht, hsame, _⟩ := hpulled.kept.stream i s hs
  refine ⟨_, ends_pull hs ?_, ends_pull ht ?_, hpulled⟩
  · rw [hinputs]
    exact ends_forM_pullSlot_of_unbound hdone hunbound
  · rwa [hsame.inputs, hinputs]

/-- After a pull, along each slot that leads to another stream there is no room left or nothing left. What was
pulled changed hands and nothing was lost; only buffers at the ends of slots have changed, and to pull again
changes nothing. The pull answers exactly if every slot is bound to a stream. -/
theorem pull_exhausts (hs : a.stream? i = some s) (ha : a.NonNegative) (m : Int) :
    ∃ x b, Action.Ends (pull m i) a x b ∧ Action.Ends (pull m i) b x b ∧
      (x = .ok () ↔ ∀ slot ∈ s.inputs, slot.supplier < a.size) ∧
      (x = .ok () → ∀ slot ∈ s.inputs, slot.supplier ≠ i → ∃ dest, b.buffer? i slot.product = some dest ∧
        (dest.free = 0 ∨ ∀ source, b.buffer? slot.supplier slot.product = some source → source.current = 0)) ∧
      Pulled i s.inputs a b := by
  obtain hbound | ⟨done, slot, rest, hinputs, hdone, hunbound⟩ := bound_or_exists_unbound a s.inputs
  · obtain ⟨hends, hagain⟩ := ends_pull_of_bound (m := m) hs ha hbound
    have hpulled : Pulled i s.inputs a (a.draw m i s.inputs) := Pulled.draw ha (fun _ h => h) m
    refine ⟨_, _, hends, hagain, iff_of_true rfl hbound, fun _ slot hslot => ?_, hpulled⟩
    exact (exhausted_draw ha hs slot hslot).free_or_empty hpulled.nonNegative
  · obtain ⟨b, hends, hagain, hpulled⟩ := ends_pull_of_unbound (m := m) hs ha hinputs hdone hunbound
    refine ⟨_, b, hends, hagain, iff_of_false nofun fun hall => ?_, nofun, hpulled⟩
    exact Nat.not_lt.2 hunbound (hall slot (hinputs ▸ List.mem_append_right done List.mem_cons_self))

/-- Two mines with ore, and a smelter with a slot for one of them, two for the other and one for itself. -/
def crowdedSmelter : Arena :=
  let mine := Stream.fresh (Recipe.every 1 Int.one_pos [] [⟨⟨0, 0⟩, 1⟩]) [] 2 8
  ⟨[mine.gain ⟨0, 0⟩ 10, mine.gain ⟨0, 0⟩ 3,
    Stream.fresh (Recipe.every 1 Int.one_pos [⟨⟨0, 0⟩, 1⟩, ⟨⟨0, 0⟩, 1⟩, ⟨⟨0, 0⟩, 1⟩, ⟨⟨0, 0⟩, 1⟩] [⟨⟨1, 0⟩, 1⟩])
      [⟨⟨0, 0⟩, 1⟩, ⟨⟨0, 0⟩, 0⟩, ⟨⟨0, 0⟩, 0⟩, ⟨⟨0, 0⟩, 2⟩] 1 8]⟩

/-- With room for eight units, the smelter is full or both mines are empty, and all thirteen units are left. -/
theorem pull_exhausts_crowdedSmelter :
    crowdedSmelter.NonNegative ∧
      ∃ b, Action.Ends (pull 2 2) crowdedSmelter (.ok ()) b ∧ Action.Ends (pull 2 2) b (.ok ()) b ∧
        b.stock ⟨0, 0⟩ = 13 ∧ ∀ u < 2, ∃ dest, b.buffer? 2 ⟨0, 0⟩ = some dest ∧
          (dest.free = 0 ∨ ∀ source, b.buffer? u ⟨0, 0⟩ = some source → source.current = 0) := by
  have hstock : crowdedSmelter.NonNegative := by decide
  obtain ⟨x, b, hends, hagain, hanswers, hdry, hpulled⟩ := pull_exhausts (i := 2) rfl hstock 2
  obtain rfl := hanswers.2 (by decide)
  refine ⟨hstock, b, hends, hagain, (hpulled.stock _).trans (by decide), fun u hu => ?_⟩
  have hslot : (⟨⟨0, 0⟩, u⟩ : Slot) ∈ ([⟨⟨0, 0⟩, 1⟩, ⟨⟨0, 0⟩, 0⟩, ⟨⟨0, 0⟩, 0⟩, ⟨⟨0, 0⟩, 2⟩] : List Slot) := by
    obtain rfl | rfl : u = 0 ∨ u = 1 := by omega
    · decide
    · decide
  exact hdry rfl _ hslot (Nat.ne_of_lt hu)

end Arena

end Conveyor
