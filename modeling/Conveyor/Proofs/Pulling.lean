-- SUMMARY: What one pull leaves a second one to do: nothing.
import Conveyor.Proofs.Silent
import Conveyor.Proofs.Stock

/-!
# Pulling again

A slot from which all that fits has been drawn is exhausted. Drawing from it again changes nothing, and
drawing from other slots of the same stream, which may share the supplier or the product, leaves it
exhausted: it only takes more out of the supplier and fills up the room. So pulling is idempotent, also
where it is stopped at a slot that is bound to no stream.
-/

namespace Conveyor

/-! ## Tables -/

namespace Table

variable {κ α : Type} [DecidableEq κ]

theorem put_eq_self {k : κ} {v : α} {es : List (κ × α)} (h : find? k es = some v) : put k v es = es := by
  induction es with
  | nil => cases h
  | cons e es ih =>
    obtain ⟨j, w⟩ := e
    unfold find? at h
    unfold put
    split at h
    next hj =>
      obtain rfl := Option.some.inj h
      rw [if_pos hj, hj]
    next hj => rw [if_neg hj, ih h]

theorem put_put (k : κ) (v w : α) (es : List (κ × α)) : put k w (put k v es) = put k w es := by
  induction es with
  | nil => simp [put]
  | cons e es ih =>
    obtain ⟨j, u⟩ := e
    cases Decidable.em (j = k) with
    | inl hj => simp [put, hj]
    | inr hj => simp [put, hj, ih]

theorem insert_eq_self {t : Table κ α} {k : κ} {v : α} (h : t.get? k = some v) : t.insert k v = t :=
  ext_entries (put_eq_self h)

theorem modify_eq_self {t : Table κ α} {k : κ} {f : α → α} (h : ∀ v, t.get? k = some v → f v = v) :
    t.modify k f = t := by
  unfold modify
  split
  next v hv => rw [h v hv, insert_eq_self hv]
  · rfl

theorem modify_modify (t : Table κ α) (k : κ) (f g : α → α) :
    (t.modify k f).modify k g = t.modify k (g ∘ f) := by
  cases h : t.get? k with
  | none => simp only [modify, h]
  | some v =>
    simp only [modify, h, get?_insert, if_pos]
    exact ext_entries (put_put k _ _ _)

end Table

/-! ## Streams -/

namespace Stream

variable {s : Stream} {p : Product} {m : Int}

theorem openInput_eq_self (h : s.buffers.contains p = true) : s.openInput p m = s := if_pos h

@[simp] theorem gain_zero (s : Stream) (p : Product) : s.gain p 0 = s := by
  have hsame : s.buffers.modify p (·.gain 0) = s.buffers := Table.modify_eq_self fun b _ => b.gain_zero
  rw [gain, hsame]

theorem gain_gain (s : Stream) (p : Product) (m n : Int) : (s.gain p m).gain p n = s.gain p (m + n) := by
  simp only [gain, Table.modify_modify, Function.comp_def, Buffer.gain_gain]

end Stream

/-! ## Arenas -/

namespace Arena

variable {a : Arena} {i j u : Nat} {s : Stream} {p q : Product} {m : Int}

theorem ext_stream? {b : Arena} (h : ∀ j, a.stream? j = b.stream? j) : a = b :=
  congrArg Arena.mk (List.ext_getElem? h)

theorem modify_eq_self_of_eq {f : Stream → Stream} (h : ∀ s, a.stream? i = some s → f s = s) :
    a.modify i f = a := by
  refine ext_stream? fun j => ?_
  rw [stream?_modify]
  split
  next hij =>
    subst hij
    cases hs : a.stream? i with
    | none => rfl
    | some s => exact congrArg some (h s hs)
  · rfl

theorem modify_modify (a : Arena) (i : Nat) (f g : Stream → Stream) :
    (a.modify i f).modify i g = a.modify i (g ∘ f) := by
  simp only [modify, List.modify_modify_eq]

/-- Changes that may be made to a stream in either order may be made to streams in either order. -/
theorem modify_comm {f g : Stream → Stream} (h : ∀ s, f (g s) = g (f s)) :
    (a.modify j g).modify i f = (a.modify i f).modify j g := by
  refine ext_stream? fun k => ?_
  simp only [stream?_modify]
  split <;> split <;> simp only [Option.map_map, Function.comp_def, h]

/-! ## Transfers -/

theorem buffer?_modify_of_ne {f : Stream → Stream} (h : i ≠ j) :
    (a.modify i f).buffer? j q = a.buffer? j q := by
  rw [buffer?, buffer?, stream?_modify, if_neg h]

theorem transfer_self (a : Arena) (i : Nat) (p : Product) : a.transfer i i p = a := by
  unfold transfer
  split
  · rw [modify_modify]
    exact modify_eq_self_of_eq fun s _ => by simp [Stream.gain_gain]
  · rfl

theorem transfer_eq_self (h : ∀ dest source, a.buffer? i p = some dest → a.buffer? u p = some source →
    dest.movable source = 0) : a.transfer i u p = a := by
  unfold transfer
  split
  next dest source hdest hsource =>
    have hzero (b : Arena) (j : Nat) : b.modify j (·.gain p 0) = b :=
      modify_eq_self_of_eq fun s _ => s.gain_zero p
    simp only [h dest source hdest hsource, Int.neg_zero, hzero]
  · rfl

/-- Between two streams, a transfer takes units out of one buffer and puts them into the other. -/
theorem buffer?_transfer {dest source : Buffer} (hu : u ≠ i) (hdest : a.buffer? i p = some dest)
    (hsource : a.buffer? u p = some source) (j : Nat) (q : Product) :
    (a.transfer i u p).buffer? j q =
      if p = q ∧ i = j then some (dest.gain (dest.movable source))
      else if p = q ∧ u = j then some (source.gain (-dest.movable source))
      else a.buffer? j q := by
  unfold transfer
  rw [hdest, hsource]
  simp only [buffer?_gain]
  cases Decidable.em (p = q) with
  | inr hp => simp only [hp, and_false, false_and, if_false]
  | inl hp =>
    subst q
    cases Decidable.em (i = j) with
    | inl hi => subst j; simp [hu, hdest]
    | inr hi =>
      cases Decidable.em (u = j) with
      | inl hj => subst j; simp [hi, hsource]
      | inr hj => simp [hi, hj]

/-- A transfer that does anything is one between two buffers of different streams. -/
theorem transfer_cases (a : Arena) (i u : Nat) (p : Product) :
    (a.transfer i u p = a ∧ (u ≠ i → a.buffer? i p = none ∨ a.buffer? u p = none)) ∨
      (u ≠ i ∧ ∃ dest source, a.buffer? i p = some dest ∧ a.buffer? u p = some source) := by
  cases Decidable.em (u = i) with
  | inl hu => exact .inl ⟨hu ▸ transfer_self a u p, fun hne => absurd hu hne⟩
  | inr hu =>
    cases hdest : a.buffer? i p with
    | none => exact .inl ⟨by simp only [transfer, hdest], fun _ => .inl rfl⟩
    | some dest =>
      cases hsource : a.buffer? u p with
      | none => exact .inl ⟨by simp only [transfer, hdest, hsource], fun _ => .inr rfl⟩
      | some source => exact .inr ⟨hu, dest, source, rfl, rfl⟩

/-! ## Exhausted slots -/

/-- No stream but `i` holds less than nothing. -/
def Stocked (a : Arena) (i : Nat) : Prop :=
  ∀ u, u ≠ i → ∀ p b, a.buffer? u p = some b → 0 ≤ b.current

/-- Nothing can be moved along a slot of stream `i`: there is no room, or there are no units. -/
def Exhausted (a : Arena) (i : Nat) (slot : Slot) : Prop :=
  ∃ dest, a.buffer? i slot.product = some dest ∧
    (slot.supplier ≠ i → ∀ source, a.buffer? slot.supplier slot.product = some source →
      dest.movable source = 0)

theorem Stocked.transfer (h : a.Stocked i) (u : Nat) (p : Product) : (a.transfer i u p).Stocked i := by
  obtain ⟨heq, _⟩ | ⟨hu, dest, source, hdest, hsource⟩ := transfer_cases a i u p
  · rwa [heq]
  · intro v hv q b hb
    rw [buffer?_transfer hu hdest hsource] at hb
    split at hb
    next hpv => exact absurd hpv.2.symm hv
    split at hb
    · obtain rfl := Option.some.inj hb
      simp only [Buffer.gain, Buffer.movable]
      omega
    · exact h v hv q b hb

theorem Stocked.modify (h : a.Stocked i) (f : Stream → Stream) : (a.modify i f).Stocked i := by
  intro u hu p b hb
  rw [buffer?_modify_of_ne hu.symm] at hb
  exact h u hu p b hb

/-- What is drawn from is exhausted then. -/
theorem exhausted_transfer (h : a.Stocked i) {dest : Buffer} {slot : Slot}
    (hdest : a.buffer? i slot.product = some dest) :
    (a.transfer i slot.supplier slot.product).Exhausted i slot := by
  obtain ⟨heq, hnone⟩ | ⟨hu, dest, source, hdest, hsource⟩ :=
    transfer_cases a i slot.supplier slot.product
  · rw [heq]
    refine ⟨dest, hdest, fun hu source hsource => ?_⟩
    rw [hdest, hsource] at hnone
    rcases hnone hu with hnone | hnone <;> cases hnone
  · have hnonneg := h slot.supplier hu slot.product source hsource
    refine ⟨dest.gain (dest.movable source), ?_, fun _ source' hsource' => ?_⟩
    · rw [buffer?_transfer hu hdest hsource, if_pos ⟨rfl, rfl⟩]
    · rw [buffer?_transfer hu hdest hsource, if_neg fun hi => hu hi.2.symm, if_pos ⟨rfl, rfl⟩] at hsource'
      obtain rfl := Option.some.inj hsource'
      simp only [Buffer.gain, Buffer.movable, Buffer.free]
      omega

/-- What is exhausted stays so while the same stream draws from elsewhere: there is no more to be had, and
no more room for it. -/
theorem Exhausted.transfer {slot : Slot} (h : a.Exhausted i slot) (ha : a.Stocked i) (u : Nat) (p : Product) :
    (a.transfer i u p).Exhausted i slot := by
  obtain ⟨heq, _⟩ | ⟨hu, dest', source', hdest', hsource'⟩ := transfer_cases a i u p
  · rwa [heq]
  obtain ⟨dest, hdest, hexhausted⟩ := h
  have hmoved := ha u hu p source' hsource'
  cases Decidable.em (p = slot.product) with
  | inr hp =>
    refine ⟨dest, ?_, fun hne source hsource => hexhausted hne source ?_⟩
    · rwa [buffer?_transfer hu hdest' hsource', if_neg (hp ·.1), if_neg (hp ·.1)]
    · rwa [buffer?_transfer hu hdest' hsource', if_neg (hp ·.1), if_neg (hp ·.1)] at hsource
  | inl hp =>
    subst p
    obtain rfl := Option.some.inj (hdest.symm.trans hdest')
    refine ⟨dest.gain (dest.movable source'), ?_, fun hne source hsource => ?_⟩
    · rw [buffer?_transfer hu hdest hsource', if_pos ⟨rfl, rfl⟩]
    · rw [buffer?_transfer hu hdest hsource', if_neg fun hi => hne hi.2.symm] at hsource
      split at hsource
      next hsame =>
        obtain ⟨_, rfl⟩ := hsame
        obtain rfl := Option.some.inj hsource
        have hzero := hexhausted hne source' hsource'
        simp only [Buffer.gain, Buffer.movable, Buffer.free] at hzero ⊢
        omega
      · have hzero := hexhausted hne source hsource
        have hnonneg := ha slot.supplier hne slot.product source hsource
        simp only [Buffer.gain, Buffer.movable, Buffer.free] at hzero ⊢
        omega

/-! ## Opening -/

theorem buffer?_openInput (a : Arena) (i : Nat) (p q : Product) (m : Int) :
    (a.openInput i p m).buffer? i q =
      if p = q then (a.stream? i).map (·.inputBuffer p m) else a.buffer? i q := by
  simp only [openInput, buffer?, stream?_modify, if_true]
  cases a.stream? i with
  | none => simp
  | some s =>
    simp only [Option.map_some, Option.bind_some, Stream.get?_openInput]

theorem inputBuffer_of_buffer? {b : Buffer} (h : a.buffer? i p = some b) :
    (a.stream? i).map (·.inputBuffer p m) = some b := by
  obtain ⟨s, hs, hb⟩ := buffer?_eq_some_iff.1 h
  rw [hs, Option.map_some, Stream.inputBuffer, hb]
  rfl

theorem openInput_eq_self {b : Buffer} (h : a.buffer? i p = some b) : a.openInput i p m = a := by
  obtain ⟨s, hs, hb⟩ := buffer?_eq_some_iff.1 h
  refine modify_eq_self_of_eq fun t ht => Stream.openInput_eq_self ?_
  obtain rfl := Option.some.inj (hs.symm.trans ht)
  rw [Table.contains, hb]
  rfl

theorem Exhausted.openInput {slot : Slot} (h : a.Exhausted i slot) (p : Product) :
    (a.openInput i p m).Exhausted i slot := by
  obtain ⟨dest, hdest, hexhausted⟩ := h
  refine ⟨dest, ?_, fun hne source hsource => hexhausted hne source ?_⟩
  · rw [buffer?_openInput]
    split
    next hp => rw [inputBuffer_of_buffer? (hp ▸ hdest)]
    · exact hdest
  · rwa [Arena.openInput, buffer?_modify_of_ne hne.symm] at hsource

/-! ## Countdowns -/

/-- The arena with so many ticks left at stream `i`. -/
def withNext (a : Arena) (i : Nat) (n : Int) : Arena := a.modify i ({ · with next := some n })

variable {n : Int}

theorem withNext_withNext (a : Arena) (i : Nat) (n k : Int) : (a.withNext i n).withNext i k = a.withNext i k :=
  modify_modify a i _ _

theorem stream?_withNext (hs : a.stream? i = some s) (n : Int) :
    (a.withNext i n).stream? i = some { s with next := some n } := by
  rw [withNext, stream?_modify, if_pos rfl, hs]
  rfl

theorem buffer?_withNext (a : Arena) (i j : Nat) (n : Int) (p : Product) :
    (a.withNext i n).buffer? j p = a.buffer? j p := by
  simp only [withNext, buffer?, stream?_modify]
  split
  · cases a.stream? j <;> rfl
  · rfl

theorem openInput_withNext (a : Arena) (i j : Nat) (n : Int) (p : Product) (m : Int) :
    (a.withNext i n).openInput j p m = (a.openInput j p m).withNext i n := by
  refine modify_comm fun s => ?_
  unfold Stream.openInput
  split <;> rfl

theorem transfer_withNext (a : Arena) (i j u : Nat) (n : Int) (p : Product) :
    (a.withNext i n).transfer j u p = (a.transfer j u p).withNext i n := by
  have hgain (b : Arena) (k : Nat) (units : Int) :
      (b.withNext i n).modify k (·.gain p units) = (b.modify k (·.gain p units)).withNext i n :=
    modify_comm fun _ => rfl
  unfold transfer
  simp only [buffer?_withNext]
  split
  · simp only [hgain]
  · rfl

/-! ## Pulling -/

theorem ends_pullSlot {slot : Slot} (h : slot.supplier < a.size) :
    Action.Ends (pullSlot m i slot) a (.ok ())
      ((a.openInput i slot.product m).transfer i slot.supplier slot.product) := by
  have hlt : slot.supplier < (a.openInput i slot.product m).size := by rwa [openInput, size_modify]
  refine Action.Ends.bind (Action.Ends.update _) (Action.Ends.bind_current ?_)
  rw [stream_of_eq_some (List.getElem?_eq_getElem hlt)]
  exact Action.Ends.bind_lift (Action.Ends.update _)

/-- A slot that is bound to no stream stops the draw, with the buffer for it opened. -/
theorem ends_pullSlot_of_unbound {slot : Slot} (h : a.size ≤ slot.supplier) :
    Action.Ends (pullSlot m i slot) a (.error .noSuchIndex) (a.openInput i slot.product m) := by
  have hle : (a.openInput i slot.product m).size ≤ slot.supplier := by rwa [openInput, size_modify]
  refine Action.Ends.bind (Action.Ends.update _) (Action.Ends.bind_current ?_)
  rw [stream, show stream? _ _ = none from List.getElem?_eq_none hle]
  exact Action.Ends.bind_error (Action.Ends.lift _)

theorem ends_pullSlot_of_lt {slot : Slot} (h : slot.supplier < a.size) :
    Action.Ends (pullSlot m i slot) (a.withNext i n) (.ok ())
      (((a.openInput i slot.product m).transfer i slot.supplier slot.product).withNext i n) := by
  rw [← transfer_withNext, ← openInput_withNext]
  exact ends_pullSlot (by rwa [withNext, size_modify])

theorem ends_pullSlot_of_le {slot : Slot} (h : a.size ≤ slot.supplier) :
    Action.Ends (pullSlot m i slot) (a.withNext i n) (.error .noSuchIndex)
      ((a.openInput i slot.product m).withNext i n) := by
  rw [← openInput_withNext]
  exact ends_pullSlot_of_unbound (by rwa [withNext, size_modify])

/-- Drawing from some slots of stream `i`, whatever its countdown, leads from `a` to `b` and ends as `x`
says. To draw from them again changes nothing and ends the same way. -/
structure Drawn (m : Int) (i : Nat) (slots : List Slot) (a : Arena) (x : Except Fault Unit) (b : Arena) :
    Prop where
  ends : ∀ n, Action.Ends (slots.forM (pullSlot m i)) (a.withNext i n) x (b.withNext i n)
  again : ∀ n, Action.Ends (slots.forM (pullSlot m i)) (b.withNext i n) x (b.withNext i n)
  stocked : b.Stocked i
  kept : Kept [] a b
  exhausted : ∀ slot, a.Exhausted i slot → b.Exhausted i slot
  answers : (∀ slot ∈ slots, slot.supplier < a.size) → x = .ok ()

/-- An exhausted slot that is bound to a stream gives nothing more. -/
theorem Exhausted.ends_pullSlot {slot : Slot} (h : a.Exhausted i slot) (hlt : slot.supplier < a.size) :
    Action.Ends (pullSlot m i slot) (a.withNext i n) (.ok ()) (a.withNext i n) := by
  obtain ⟨dest, hdest, hexhausted⟩ := h
  have hends := ends_pullSlot_of_lt (m := m) (i := i) (n := n) hlt
  rw [openInput_eq_self hdest] at hends
  have hstays : a.transfer i slot.supplier slot.product = a := by
    cases Decidable.em (slot.supplier = i) with
    | inl hself => rw [hself, transfer_self]
    | inr hne =>
      refine transfer_eq_self fun dest' source hdest' hsource => ?_
      obtain rfl := Option.some.inj (hdest.symm.trans hdest')
      exact hexhausted hne source hsource
  rwa [hstays] at hends

theorem exists_drawn {slots : List Slot} (ha : a.Stocked i) (hi : i < a.size) :
    ∃ x b, Drawn m i slots a x b := by
  induction slots generalizing a with
  | nil =>
    exact ⟨.ok (), a, fun _ => .pure (), fun _ => .pure (), ha, Kept.refl [] a, fun _ h => h, fun _ => rfl⟩
  | cons slot slots ih =>
    set opened := a.openInput i slot.product m
    have hopened : Kept [] a opened := Kept.openInput a i slot.product m
    have hstocked : opened.Stocked i := ha.modify _
    obtain ⟨dest, hdest⟩ : ∃ dest, opened.buffer? i slot.product = some dest := by
      obtain ⟨s, hs⟩ : ∃ s, a.stream? i = some s := ⟨_, List.getElem?_eq_getElem hi⟩
      exact ⟨_, by rw [buffer?_openInput, if_pos rfl, hs]; rfl⟩
    cases Nat.lt_or_ge slot.supplier a.size with
    | inl hlt =>
      set moved := opened.transfer i slot.supplier slot.product
      have hmoved : Kept [] a moved := hopened.trans (Kept.transfer _ _ _ _)
      obtain ⟨x, b, h⟩ := ih (a := moved) (hstocked.transfer _ _) (hmoved.size.symm ▸ hi)
      have hexhausted := h.exhausted slot (exhausted_transfer hstocked hdest)
      have hsize : b.size = a.size := h.kept.size.trans hmoved.size
      refine ⟨x, b, fun n => ?_, fun n => ?_, h.stocked, hmoved.trans h.kept, fun other hother => ?_, ?_⟩
      · exact (ends_pullSlot_of_lt hlt).bind (h.ends n)
      · exact (hexhausted.ends_pullSlot (hsize.symm ▸ hlt)).bind (h.again n)
      · exact h.exhausted other ((hother.openInput _).transfer hstocked _ _)
      · exact fun hall => h.answers fun other hother =>
          hmoved.size.symm ▸ hall other (List.mem_cons_of_mem _ hother)
    | inr hle =>
      have hagain (n : Int) : Action.Ends (pullSlot m i slot) (opened.withNext i n)
          (.error .noSuchIndex) (opened.withNext i n) := by
        have hends := ends_pullSlot_of_le (m := m) (i := i) (n := n) (a := opened)
          (hopened.size.symm ▸ hle)
        rwa [openInput_eq_self hdest] at hends
      refine ⟨.error .noSuchIndex, opened, fun n => ?_, fun n => ?_, hstocked, hopened,
        fun other hother => hother.openInput _, fun hall => ?_⟩
      · exact (ends_pullSlot_of_le hle).bind_error
      · exact (hagain n).bind_error
      · exact absurd (hall slot List.mem_cons_self) (Nat.not_lt.2 hle)

end Arena

end Conveyor
