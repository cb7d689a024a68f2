-- SUMMARY: What a stream does in one tick: nothing before its boundary, and there it draws and runs a cycle if it can.
import Conveyor.Proofs.Splitting

/-!
# Turns

Tick by tick, a stream stands still until its countdown is over. Then it has its turn: it draws along
its slots, one after another, and runs a cycle if that is enough for one. Where every slot is bound to
a stream, nothing of this can fail, and what a turn leaves is a function of the arena.
-/

namespace Conveyor

/-! ## Countdowns tick by tick -/

namespace Clock

/-- Ticks that are left of the running cycle after so many ticks. -/
def countdown (period age : Nat) : Int := period - (age % period : Nat)

variable {period age : Nat}

/-- A boundary is crossed when the ticks fill whole periods. -/
theorem advance_countdown (hp : 0 < period) :
    advance (countdown period age) period 1 =
      .ok (if period ∣ age + 1 then 1 else 0, countdown period (age + 1)) := by
  have hlt := Nat.mod_lt age hp
  have hpassed : (period : Int) - countdown period age + 1 = ((age % period + 1 : Nat) : Int) := by
    unfold countdown
    omega
  have hcrossed : (age % period + 1) / period = if period ∣ age + 1 then 1 else 0 := by
    have hdvd : period ∣ age % period + 1 ↔ period ∣ age + 1 := by
      rw [Nat.dvd_iff_mod_eq_zero, Nat.dvd_iff_mod_eq_zero, Nat.mod_add_mod]
    rw [Nat.succ_div, Nat.div_eq_of_lt hlt, Nat.zero_add]
    simp only [hdvd]
  have hnext : 1 ≤ countdown period age ∧ countdown period age ≤ period := by
    unfold countdown
    omega
  rw [advance_eq_ok hnext.1 hnext.2 Int.one_nonneg, hpassed, ← Int.natCast_ediv, ← Int.natCast_emod,
    hcrossed, Nat.mod_add_mod]
  split <;> rfl

end Clock

namespace Arena

open Clock (countdown)

variable {a b : Arena} {i j u k : Nat} {s t : Stream} {slot : Slot} {slots : List Slot} {m n : Int}
  {p q : Product}

/-! ## Drawing -/

/-- The arena after stream `i` has drawn along one slot. -/
def drawSlot (m : Int) (i : Nat) (a : Arena) (slot : Slot) : Arena :=
  (a.openInput i slot.product m).transfer i slot.supplier slot.product

/-- The arena after stream `i` has drawn along some slots. -/
def draw (m : Int) (i : Nat) (slots : List Slot) (a : Arena) : Arena := slots.foldl (drawSlot m i) a

theorem Kept.drawSlot (a : Arena) (i : Nat) (slot : Slot) : Kept [] a (a.drawSlot m i slot) :=
  (Kept.openInput a i slot.product m).trans (Kept.transfer _ _ _ _)

theorem draw_induction {P : Arena → Prop} (h : ∀ b, P b → ∀ slot ∈ slots, P (b.drawSlot m i slot))
    (ha : P a) : P (a.draw m i slots) :=
  List.foldlRecOn slots _ ha fun b hb slot hslot => h b hb slot hslot

theorem draw_cons (m : Int) (i : Nat) (slot : Slot) (slots : List Slot) (a : Arena) :
    a.draw m i (slot :: slots) = (a.drawSlot m i slot).draw m i slots := rfl

theorem Kept.draw (a : Arena) (i : Nat) (slots : List Slot) : Kept [] a (a.draw m i slots) :=
  draw_induction (fun b hb slot _ => hb.trans (Kept.drawSlot b i slot)) (Kept.refl [] a)

theorem ends_draw (h : ∀ slot ∈ slots, slot.supplier < a.size) :
    Action.Ends (slots.forM (pullSlot m i)) (a.withNext i n) (.ok ())
      ((a.draw m i slots).withNext i n) := by
  induction slots generalizing a with
  | nil => exact Action.Ends.pure ()
  | cons slot slots ih =>
    obtain ⟨hslot, hslots⟩ := List.forall_mem_cons.1 h
    refine (ends_pullSlot_of_lt hslot).bind (ih fun other hother => ?_)
    exact (Kept.drawSlot a i slot).size.symm ▸ hslots other hother

/-- Drawing along a slot is about the product of the slot. -/
theorem buffer?_drawSlot_of_product (h : slot.product ≠ q) (a : Arena) (i j : Nat) :
    (a.drawSlot m i slot).buffer? j q = a.buffer? j q := by
  have hopen : (a.openInput i slot.product m).buffer? j q = a.buffer? j q := by
    cases Decidable.em (i = j) with
    | inl hij =>
      subst j
      rw [buffer?_openInput, if_neg h]
    | inr hij => exact buffer?_modify_of_ne hij
  obtain ⟨heq, _⟩ | ⟨hu, dest, source, hdest, hsource⟩ :=
    transfer_cases (a.openInput i slot.product m) i slot.supplier slot.product
  · rw [drawSlot, heq, hopen]
  · rw [drawSlot, buffer?_transfer hu hdest hsource, if_neg (h ·.1), if_neg (h ·.1), hopen]

/-- Drawing along a slot is about the stream that draws and the stream that the slot is bound to. -/
theorem stream?_drawSlot_of_ne (hi : j ≠ i) (hu : j ≠ slot.supplier) (a : Arena) :
    (a.drawSlot m i slot).stream? j = a.stream? j := by
  have hmodify (b : Arena) {v : Nat} (hv : j ≠ v) (f : Stream → Stream) :
      (b.modify v f).stream? j = b.stream? j := by
    rw [stream?_modify, if_neg hv.symm]
  unfold drawSlot transfer
  split
  · rw [hmodify _ hi, hmodify _ hu, openInput, hmodify _ hi]
  · rw [openInput, hmodify _ hi]

/-- Drawing along a slot changes no buffer but those of its product at its two ends. -/
theorem buffer?_drawSlot_of_not (h : ¬ (slot.product = q ∧ (j = i ∨ j = slot.supplier))) :
    (a.drawSlot m i slot).buffer? j q = a.buffer? j q := by
  cases Decidable.em (slot.product = q) with
  | inr hq => exact buffer?_drawSlot_of_product hq a i j
  | inl hq =>
    obtain ⟨hi, hu⟩ := not_or.1 fun hj => h ⟨hq, hj⟩
    rw [buffer?, buffer?, stream?_drawSlot_of_ne hi hu]

/-- What is drawn along a slot is what there is and what there is room for. -/
theorem buffer?_drawSlot (hs : a.stream? i = some s) (hu : slot.supplier ≠ i) {source : Buffer}
    (hsource : a.buffer? slot.supplier slot.product = some source) :
    (a.drawSlot m i slot).buffer? i slot.product =
        some ((s.inputBuffer slot.product m).gain ((s.inputBuffer slot.product m).movable source)) ∧
      (a.drawSlot m i slot).buffer? slot.supplier slot.product =
        some (source.gain (-(s.inputBuffer slot.product m).movable source)) := by
  have hdest : (a.openInput i slot.product m).buffer? i slot.product =
      some (s.inputBuffer slot.product m) := by
    rw [buffer?_openInput, if_pos rfl, hs, Option.map_some]
  have hopened : (a.openInput i slot.product m).buffer? slot.supplier slot.product = some source :=
    (buffer?_modify_of_ne hu.symm).trans hsource
  unfold drawSlot
  constructor
  · rw [buffer?_transfer hu hdest hopened, if_pos ⟨rfl, rfl⟩]
  · rw [buffer?_transfer hu hdest hopened, if_neg fun h => hu h.2.symm, if_pos ⟨rfl, rfl⟩]

theorem buffer?_draw_of_product (h : ∀ slot ∈ slots, slot.product ≠ q) (a : Arena) (i j : Nat) :
    (a.draw m i slots).buffer? j q = a.buffer? j q :=
  draw_induction (P := fun b => b.buffer? j q = a.buffer? j q)
    (fun b hb slot hslot => (buffer?_drawSlot_of_product (h slot hslot) b i j).trans hb) rfl

theorem inputBuffer_eq (hs : a.stream? i = some s) :
    s.inputBuffer p m = (a.buffer? i p).getD ⟨0, s.recipe.requiredOf p * m * s.mult⟩ := by
  rw [buffer?, hs]
  rfl

theorem movable_gain {dest source : Buffer} (_ : 0 ≤ source.current) :
    (dest.gain (dest.movable source)).movable (source.gain (-dest.movable source)) = 0 := by
  simp only [Buffer.gain, Buffer.movable, Buffer.free]
  omega

/-- Where nothing can be moved, drawing moves nothing. -/
theorem buffer?_draw_of_movable {dest source : Buffer} (hs : a.stream? i = some s) (hu : u ≠ i)
    (hbound : ∀ slot ∈ slots, slot.product = p → slot.supplier = u)
    (hdest : a.buffer? i p = some dest) (hsource : a.buffer? u p = some source)
    (hzero : dest.movable source = 0) :
    (a.draw m i slots).buffer? i p = some dest ∧ (a.draw m i slots).buffer? u p = some source := by
  suffices h : Kept [] a (a.draw m i slots) ∧ (a.draw m i slots).buffer? i p = some dest ∧
      (a.draw m i slots).buffer? u p = some source from h.2
  refine draw_induction (P := fun b => Kept [] a b ∧ b.buffer? i p = some dest ∧ b.buffer? u p = some source)
    (fun b hb slot hslot => ?_) ⟨Kept.refl [] a, hdest, hsource⟩
  obtain ⟨hkept, hdest, hsource⟩ := hb
  refine ⟨hkept.trans (Kept.drawSlot b i slot), ?_⟩
  cases Decidable.em (slot.product = p) with
  | inr hp =>
    rw [buffer?_drawSlot_of_product hp, buffer?_drawSlot_of_product hp]
    exact ⟨hdest, hsource⟩
  | inl hp =>
    subst p
    obtain rfl := hbound slot hslot rfl
    obtain ⟨t, ht, _⟩ := hkept.stream i s hs
    have hinput : t.inputBuffer slot.product m = dest := by
      rw [inputBuffer_eq ht, hdest, Option.getD_some]
    have hdrawn := buffer?_drawSlot (m := m) ht hu hsource
    rwa [hinput, hzero, Int.neg_zero, Buffer.gain_zero, Buffer.gain_zero] at hdrawn

/-- Whatever the order of the slots is, of each product is drawn what there is and what there is room for. -/
theorem buffer?_draw {source : Buffer} (hs : a.stream? i = some s) (hu : u ≠ i)
    (hbound : ∀ slot ∈ slots, slot.product = p → slot.supplier = u) (hmem : p ∈ slots.map Slot.product)
    (hsource : a.buffer? u p = some source) (hnonneg : 0 ≤ source.current) :
    (a.draw m i slots).buffer? i p =
        some ((s.inputBuffer p m).gain ((s.inputBuffer p m).movable source)) ∧
      (a.draw m i slots).buffer? u p = some (source.gain (-(s.inputBuffer p m).movable source)) := by
  induction slots generalizing a s with
  | nil => cases hmem
  | cons slot slots ih =>
    obtain ⟨hslot, hslots⟩ := List.forall_mem_cons.1 hbound
    obtain ⟨t, ht, hsame, _⟩ := (Kept.drawSlot (m := m) a i slot).stream i s hs
    rw [draw_cons]
    cases Decidable.em (slot.product = p) with
    | inl hp =>
      subst p
      obtain rfl := hslot rfl
      obtain ⟨hdest', hsource'⟩ := buffer?_drawSlot (m := m) hs hu hsource
      exact buffer?_draw_of_movable ht hu hslots hdest' hsource' (movable_gain hnonneg)
    | inr hp =>
      have hinput : t.inputBuffer p m = s.inputBuffer p m := by
        rw [inputBuffer_eq ht, inputBuffer_eq hs, buffer?_drawSlot_of_product hp, hsame.recipe, hsame.mult]
      rw [← hinput]
      refine ih ht hslots ((List.mem_cons.1 hmem).resolve_left (Ne.symm hp)) ?_
      rwa [buffer?_drawSlot_of_product hp]

/-! ## Turns -/

/-- A turn of stream `i` leads from `a` to the second arena, with the one cycle that it completes or
with none. -/
inductive Turn (m : Int) (i : Nat) (a : Arena) : Nat → Arena → Prop
  | stalls {s t : Stream} (stream : a.stream? i = some s)
      (drawn : (a.draw m i s.inputs).stream? i = some t) (lacks : t.produce? = none) :
      Turn m i a 0 (a.draw m i s.inputs)
  | runs {s t t' : Stream} (stream : a.stream? i = some s)
      (drawn : (a.draw m i s.inputs).stream? i = some t) (produces : t.produce? = some t') :
      Turn m i a 1 ((a.draw m i s.inputs).modify i fun _ => t')

theorem exists_turn (hs : a.stream? i = some s) : ∃ k b, Turn m i a k b := by
  obtain ⟨t, ht, _⟩ := (Kept.draw (m := m) a i s.inputs).stream i s hs
  cases hproduce : t.produce? with
  | none => exact ⟨_, _, .stalls hs ht hproduce⟩
  | some t' => exact ⟨_, _, .runs hs ht hproduce⟩

theorem Kept.turn (h : Turn m i a k b) : Kept [] a b := by
  cases h with
  | stalls => exact Kept.draw a i _
  | runs stream drawn produces => exact (Kept.draw a i _).trans (Kept.produce drawn produces)

theorem buffer?_produce {t' : Stream} (ht : a.stream? i = some t) (hproduce : t.produce? = some t') (p : Product) :
    (a.modify i fun _ => t').buffer? i p =
      (a.buffer? i p).map (·.gain (t.mult * (t.recipe.yieldOf p - t.recipe.requiredOf p))) := by
  rw [buffer?, stream?_modify, if_pos rfl, buffer?, ht]
  exact Stream.get?_of_produce? hproduce p

/-- A stream without slots has nothing to draw. -/
theorem Turn.of_inputs_nil (h : Turn m i a k b) (hs : a.stream? i = some s) (hnil : s.inputs = []) :
    s.produce? = none ∧ b = a ∨ ∃ s', s.produce? = some s' ∧ b = a.modify i fun _ => s' := by
  have hdraw {r : Stream} (hr : a.stream? i = some r) : a.draw m i r.inputs = a := by
    obtain rfl := Option.some.inj (hs.symm.trans hr)
    rw [hnil]
    rfl
  cases h with
  | stalls stream drawn lacks =>
    rw [hdraw stream] at drawn ⊢
    obtain rfl := Option.some.inj (hs.symm.trans drawn)
    exact .inl ⟨lacks, rfl⟩
  | runs stream drawn produces =>
    rw [hdraw stream] at drawn ⊢
    obtain rfl := Option.some.inj (hs.symm.trans drawn)
    exact .inr ⟨_, produces, rfl⟩

/-- A turn is about the stream itself and about what its slots are bound to. -/
theorem Turn.buffer?_of_ne (h : Turn m i a k b) (hi : j ≠ i)
    (hslots : ∀ s, a.stream? i = some s → ∀ slot ∈ s.inputs, slot.supplier = j → slot.product ≠ q) :
    b.buffer? j q = a.buffer? j q := by
  have hdraw {s : Stream} (hs : a.stream? i = some s) :
      (a.draw m i s.inputs).buffer? j q = a.buffer? j q := by
    refine draw_induction (P := fun c => c.buffer? j q = a.buffer? j q) (fun c hc slot hslot => ?_) rfl
    cases Decidable.em (slot.supplier = j) with
    | inl hsupplier => rw [buffer?_drawSlot_of_product (hslots s hs slot hslot hsupplier), hc]
    | inr hsupplier => rw [buffer?, stream?_drawSlot_of_ne hi (Ne.symm hsupplier), ← buffer?, hc]
  cases h with
  | stalls stream => exact hdraw stream
  | runs stream => rw [buffer?_modify_of_ne hi.symm, hdraw stream]

/-- What a stream leaves of a buffer that it draws from. -/
theorem Turn.buffer?_le (h : Turn m i a k b) (hj : j ≠ i) {source : Buffer}
    (hsource : a.buffer? j q = some source) (hnonneg : 0 ≤ source.current) :
    ∃ left, b.buffer? j q = some left ∧ 0 ≤ left.current ∧ left.current ≤ source.current ∧
      left.max = source.max := by
  let Left (c : Arena) : Prop := ∃ left, c.buffer? j q = some left ∧ 0 ≤ left.current ∧
    left.current ≤ source.current ∧ left.max = source.max
  have hdraw {s : Stream} (hs : a.stream? i = some s) : Left (a.draw m i s.inputs) := by
    suffices h : Kept [] a (a.draw m i s.inputs) ∧ Left (a.draw m i s.inputs) from h.2
    refine draw_induction (P := fun c => Kept [] a c ∧ Left c) (fun c hc slot _ => ?_)
      ⟨Kept.refl [] a, source, hsource, hnonneg, Int.le_refl _, rfl⟩
    obtain ⟨hkept, left, hleft, hlow, hhigh, hmax⟩ := hc
    refine ⟨hkept.trans (Kept.drawSlot c i slot), ?_⟩
    cases Decidable.em (slot.product = q) with
    | inr hq => exact ⟨left, (buffer?_drawSlot_of_product hq c i j).trans hleft, hlow, hhigh, hmax⟩
    | inl hq =>
      subst q
      cases Decidable.em (slot.supplier = j) with
      | inr hsupplier =>
        refine ⟨left, ?_, hlow, hhigh, hmax⟩
        rw [buffer?, stream?_drawSlot_of_ne hj (Ne.symm hsupplier), ← buffer?, hleft]
      | inl hsupplier =>
        subst j
        obtain ⟨t, ht, _⟩ := hkept.stream i s hs
        refine ⟨_, (buffer?_drawSlot ht hj hleft).2, ?_, ?_, hmax⟩
        · simp only [Buffer.gain, Buffer.movable]
          omega
        · simp only [Buffer.gain, Buffer.movable, Buffer.free]
          omega
  cases h with
  | stalls stream => exact hdraw stream
  | runs stream =>
    obtain ⟨left, hleft, hrest⟩ := hdraw stream
    exact ⟨left, (buffer?_modify_of_ne hj.symm).trans hleft, hrest⟩

/-- A turn is what an attempt comes to. -/
theorem Turn.ends_attempt (h : Turn m i a k b) (hbound : a.SlotsBound i) (next : Int) :
    Action.Ends (attempt m i) (a.withNext i next) (.ok (decide (k = 1))) (b.withNext i next) := by
  have hpull {s : Stream} (hs : a.stream? i = some s) :
      Action.Ends (pull m i) (a.withNext i next) (.ok ()) ((a.draw m i s.inputs).withNext i next) := by
    refine Action.Ends.bind_current ?_
    rw [stream_of_eq_some (stream?_withNext hs next)]
    exact Action.Ends.bind_lift (ends_draw (hbound s hs))
  cases h with
  | @stalls s t stream drawn lacks =>
    have hnone : Stream.produce? { t with next := some next } = none := by
      rw [t.produce?_withNext, lacks, Option.map_none]
    exact ends_attempt_of_none (hpull stream) (stream?_withNext drawn next) hnone
  | @runs s t t' stream drawn produces =>
    have hsome : Stream.produce? { t with next := some next } = some { t' with next := some next } := by
      rw [t.produce?_withNext, produces, Option.map_some]
    have hcycle : ((a.draw m i s.inputs).withNext i next).modify i (fun _ => { t' with next := some next }) =
        ((a.draw m i s.inputs).modify i fun _ => t').withNext i next := by
      simp only [withNext, modify_modify, Function.comp_def]
    exact hcycle ▸ ends_attempt_of_some (hpull stream) (stream?_withNext drawn next) hsome

theorem Turn.cycled (h : Turn m i a k b) (hbound : a.SlotsBound i) : Cycled m i 1 a (.ok k) b := by
  intro count next
  have hattempt := h.ends_attempt hbound next
  cases h with
  | stalls => exact hattempt.bind (Action.Ends.pure count)
  | runs => exact hattempt.bind (Action.Ends.pure (count + 1))

/-- A turn that completes no cycle ends the run. -/
theorem Turn.cycled_of_stalls (h : Turn m i a 0 b) (hbound : a.SlotsBound i) (attempts : Nat) :
    Cycled m i (attempts + 1) a (.ok 0) b := fun count next =>
  (h.ends_attempt hbound next).bind (Action.Ends.pure count)

/-- After a turn that completes a cycle the run goes on. -/
theorem Turn.cycled_of_runs {c : Arena} {attempts : Nat} (h : Turn m i a 1 b) (hbound : a.SlotsBound i)
    (hrest : Cycled m i attempts b (.ok k) c) : Cycled m i (attempts + 1) a (.ok (1 + k)) c := by
  intro count next
  have hcount : (Except.ok (1 + k) : Except Fault Nat).map (count + ·) = (Except.ok k).map (count + 1 + ·) :=
    congrArg Except.ok (Nat.add_assoc count 1 k).symm
  rw [hcount]
  exact (h.ends_attempt hbound next).bind (hrest (count + 1) next)

/-! ## Ticks -/

/-- One tick of stream `i`, after so many ticks of its life, leads from `a` to the second arena, with
so many completed cycles. -/
inductive Ticked (m : Int) (i period age : Nat) (a : Arena) : Nat → Arena → Prop
  | waits (between : ¬ period ∣ age + 1) : Ticked m i period age a 0 (a.withNext i (countdown period (age + 1)))
  | idles {s : Stream} (stream : a.stream? i = some s) (inert : s.recipe.isInert = true) :
      Ticked m i period age a 0 (a.withNext i (countdown period (age + 1)))
  | turns {k : Nat} {b : Arena} (boundary : period ∣ age + 1) (turn : Turn m i a k b) :
      Ticked m i period age a k (b.withNext i (countdown period (age + 1)))

theorem Kept.withNext (a : Arena) (i : Nat) (n : Int) : Kept [i] a (a.withNext i n) :=
  Kept.modify fun s _ => ⟨Stream.setNext_same s _, fun hi => absurd (List.mem_singleton_self i) hi⟩

namespace Ticked

variable {period age : Nat}

theorem kept (h : Ticked m i period age a k b) : Kept [i] a b := by
  cases h with
  | waits | idles => exact Kept.withNext a i _
  | turns _ turn => exact (Kept.turn turn).trans (Kept.withNext _ i _)

theorem buffer?_of_ne (h : Ticked m i period age a k b) (hi : j ≠ i)
    (hslots : ∀ s, a.stream? i = some s → ∀ slot ∈ s.inputs, slot.supplier = j → slot.product ≠ q) :
    b.buffer? j q = a.buffer? j q := by
  cases h with
  | waits | idles => exact buffer?_withNext a i j _ q
  | turns _ turn => exact (buffer?_withNext _ i j _ q).trans (turn.buffer?_of_ne hi hslots)

theorem buffer?_le (h : Ticked m i period age a k b) (hj : j ≠ i) {source : Buffer}
    (hsource : a.buffer? j q = some source) (hnonneg : 0 ≤ source.current) :
    ∃ left, b.buffer? j q = some left ∧ 0 ≤ left.current ∧ left.current ≤ source.current ∧
      left.max = source.max := by
  cases h with
  | waits | idles =>
    exact ⟨source, (buffer?_withNext a i j _ q).trans hsource, hnonneg, Int.le_refl _, rfl⟩
  | turns _ turn =>
    obtain ⟨left, hleft, hrest⟩ := turn.buffer?_le hj hsource hnonneg
    exact ⟨left, (buffer?_withNext _ i j _ q).trans hleft, hrest⟩

/-- A tick later the countdown is where a tick more has left it. -/
theorem next (h : Ticked m i period age a k b) (ht : b.stream? i = some t) :
    t.next = some (countdown period (age + 1)) := by
  have hset (c : Arena) (hc : (c.withNext i (countdown period (age + 1))).stream? i = some t) :
      t.next = some (countdown period (age + 1)) := by
    rw [withNext, stream?_modify, if_pos rfl] at hc
    obtain ⟨_, _, rfl⟩ := Option.map_eq_some_iff.1 hc
    rfl
  cases h with
  | waits | idles => exact hset a ht
  | turns => exact hset _ ht

end Ticked

/-- Every stream has ticked so often. -/
def Aged (age : Nat → Nat) (a : Arena) : Prop :=
  ∀ i s (period : Nat), a.stream? i = some s → s.recipe.period = .ok period →
    s.next.getD period = countdown period (age i)

/-- Ticks of each stream after one more of stream `i`. -/
def older (age : Nat → Nat) (i : Nat) : Nat → Nat := Function.update age i (age i + 1)

theorem older_self (age : Nat → Nat) (i : Nat) : older age i i = age i + 1 := Function.update_self ..

theorem older_of_ne (age : Nat → Nat) (h : j ≠ i) : older age i j = age j := Function.update_of_ne h ..

theorem Aged.ticked {age : Nat → Nat} {period : Nat} (h : Aged age a) (hs : a.stream? i = some s)
    (hperiod : s.recipe.period = .ok period) (hticked : Ticked m i period (age i) a k b) :
    Aged (older age i) b := by
  intro j t period' ht hperiod'
  obtain ⟨r, hr, hsame, hnext⟩ := hticked.kept.stream_of_after ht
  cases Decidable.em (j = i) with
  | inl hij =>
    subst j
    obtain rfl := Option.some.inj (hs.symm.trans hr)
    rw [hsame.recipe, hperiod] at hperiod'
    obtain rfl : period = period' := Int.ofNat.inj (Except.ok.inj hperiod')
    rw [hticked.next ht, Option.getD_some, older_self]
  | inr hij =>
    rw [older_of_ne age hij, hnext (by simpa using hij)]
    exact h j r period' hr (hsame.recipe ▸ hperiod')

theorem wp_advance_one {st : Logged Arena} {period age : Nat} (hs : st.state.stream? i = some s)
    (hbound : st.state.SlotsBound i) (hperiod : s.recipe.period = .ok period) (hpos : 0 < period)
    (hage : s.next.getD period = countdown period age) :
    (advance i 1 m).wp
      (fun r t => t.least = st.least ∧ ∃ k, Ticked m i period age st.state k t.state ∧ r = reportOf s i k)
      (fun f _ => f = .tooManyDigits ∧ st.least.rank ≤ Level.debug.rank) st := by
  have hclock := @Clock.advance_countdown period age hpos
  rw [← hage] at hclock
  obtain ⟨k, b, hcycled, hticked⟩ : ∃ k b,
      Cycled m i (if s.recipe.isInert then 0 else (if period ∣ age + 1 then (1 : Int) else 0).toNat)
        st.state (.ok k) b ∧
      Ticked m i period age st.state k (b.withNext i (countdown period (age + 1))) := by
    cases hinert : s.recipe.isInert with
    | true => exact ⟨0, st.state, Cycled.zero m i st.state, .idles hs hinert⟩
    | false =>
      cases Decidable.em (period ∣ age + 1) with
      | inl hboundary =>
        obtain ⟨k, b, hturn⟩ := exists_turn (m := m) hs
        rw [if_pos hboundary]
        exact ⟨k, b, hturn.cycled hbound, .turns hboundary hturn⟩
      | inr hbetween =>
        rw [if_neg hbetween]
        exact ⟨0, st.state, Cycled.zero m i st.state, .waits hbetween⟩
  refine (wp_advance hs hperiod hclock hcycled).weaken ?_ ?_
  · rintro r t ⟨⟨hstate, hleast⟩, j, hj, rfl⟩
    obtain rfl := Except.ok.inj hj
    exact ⟨hleast, k, hstate ▸ hticked, rfl⟩
  · exact fun f t hf => hf.2.resolve_left nofun

end Arena

end Conveyor
