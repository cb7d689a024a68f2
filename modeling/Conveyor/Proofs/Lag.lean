-- SUMMARY: With takers first, a call draws on what there was when it began, and what it makes stays for the next one.
import Conveyor.Proofs.Exchange
import Conveyor.Proofs.Ledger

/-!
# One call behind

With takers first, a stream is visited when all that draw on it have been, and before all that it draws on.
So until then its stock has only been drawn from, by no more than there was, and from then on nothing is
drawn from it any more. A stream that is still to come holds no less than nothing: that is what the visits
of its takers keep. Its stock, with what was drawn from it and without what it drew itself, is changed by
its own cycles only, whoever is visited.
-/

namespace Conveyor

namespace Arena

variable {a : Arena} {i j u : Nat} {s s' : Stream} {slot : Slot} {p : Product} {m : Int}

theorem held_eq_buffer? (a : Arena) (i : Nat) (p : Product) :
    a.held i p = ((a.buffer? i p).map Buffer.current).getD 0 := by
  unfold held buffer?
  cases a.stream? i <;> rfl

theorem held_of_buffer? {b : Buffer} (h : a.buffer? i p = some b) : a.held i p = b.current := by
  rw [held_eq_buffer?, h]
  rfl

theorem NonNegative.held_nonneg (h : a.NonNegative) (u : Nat) (p : Product) : 0 ≤ a.held u p := by
  cases hb : a.buffer? u p with
  | none => rw [held_eq_buffer?, hb]; rfl
  | some b =>
    obtain ⟨s, hs, hget⟩ := buffer?_eq_some_iff.1 hb
    rw [held_of_buffer? hb]
    exact h s (List.mem_of_getElem? hs) b (Table.mem_values_iff.2 ⟨p, hget⟩)

theorem held_of_buffer?_eq {b : Arena} (h : b.buffer? i p = a.buffer? i p) : b.held i p = a.held i p := by
  rw [held_eq_buffer?, held_eq_buffer?, h]

theorem inputBuffer_current (hs : a.stream? i = some s) : (s.inputBuffer p m).current = a.held i p := by
  rw [inputBuffer_eq hs, held_eq_buffer?]
  cases a.buffer? i p <;> rfl

theorem held_modify_of_ne {f : Stream → Stream} (h : i ≠ j) (p : Product) :
    (a.modify i f).held j p = a.held j p := by
  rw [held_modify, if_neg h]

/-- A cycle changes the stock of its stream by the net amounts. -/
theorem held_produce (hs : a.stream? i = some s) (h : s.produce? = some s') (p : Product) :
    (a.modify i fun _ => s').held i p = a.held i p + a.net i p := by
  have hs' : (a.modify i fun _ => s').stream? i = some s' := by
    rw [stream?_modify, if_pos rfl, hs]
    rfl
  rw [held_eq hs', held_eq hs, net_eq hs, Stream.stock_of_produce? h]

/-- Elsewhere a draw changes no stock. -/
theorem held_drawSlot_of_not (h : ¬ (slot.product = p ∧ (j = i ∨ j = slot.supplier))) :
    (a.drawSlot m i slot).held j p = a.held j p :=
  held_of_buffer?_eq (buffer?_drawSlot_of_not h)

/-- Where the supplier has no buffer, a draw only makes room. -/
theorem drawSlot_of_none (hu : slot.supplier ≠ i) (hnone : a.buffer? slot.supplier slot.product = none) :
    a.drawSlot m i slot = a.openInput i slot.product m := by
  obtain ⟨heq, -⟩ | ⟨-, _, source, -, hsome⟩ :=
    transfer_cases (a.openInput i slot.product m) i slot.supplier slot.product
  · exact heq
  · rw [openInput, buffer?_modify_of_ne hu.symm, hnone] at hsome
    cases hsome

/-- What is drawn along a slot changes hands. -/
theorem held_drawSlot_add (hs : a.stream? i = some s) (hu : slot.supplier ≠ i) :
    (a.drawSlot m i slot).held i slot.product + (a.drawSlot m i slot).held slot.supplier slot.product =
      a.held i slot.product + a.held slot.supplier slot.product := by
  cases hsource : a.buffer? slot.supplier slot.product with
  | some source =>
    obtain ⟨htaken, hleft⟩ := buffer?_drawSlot (m := m) hs hu hsource
    rw [held_of_buffer? hsource, held_of_buffer? hleft, held_of_buffer? htaken, ← inputBuffer_current (m := m) hs,
      Buffer.gain_current, Buffer.gain_current]
    omega
  | none => rw [drawSlot_of_none hu hsource, held_openInput, held_openInput]

/-- What is drawn along a slot is there before, and changes hands. -/
theorem held_drawSlot (hs : a.stream? i = some s) (hu : slot.supplier ≠ i)
    (hnonneg : 0 ≤ a.held slot.supplier slot.product) :
    0 ≤ (a.drawSlot m i slot).held slot.supplier slot.product ∧
      (a.drawSlot m i slot).held slot.supplier slot.product ≤ a.held slot.supplier slot.product ∧
      (a.drawSlot m i slot).held i slot.product + (a.drawSlot m i slot).held slot.supplier slot.product =
        a.held i slot.product + a.held slot.supplier slot.product := by
  suffices h : 0 ≤ (a.drawSlot m i slot).held slot.supplier slot.product ∧
      (a.drawSlot m i slot).held slot.supplier slot.product ≤ a.held slot.supplier slot.product from
    ⟨h.1, h.2, held_drawSlot_add hs hu⟩
  cases hsource : a.buffer? slot.supplier slot.product with
  | some source =>
    obtain ⟨-, hleft⟩ := buffer?_drawSlot (m := m) hs hu hsource
    rw [held_of_buffer? hsource] at hnonneg ⊢
    rw [held_of_buffer? hleft]
    simp only [Buffer.gain, Buffer.movable, Buffer.free]
    omega
  | none =>
    rw [drawSlot_of_none hu hsource, held_openInput]
    exact ⟨hnonneg, Int.le_refl _⟩

end Arena

namespace Ledger

open Arena (Kept reportOf)

variable {a : Arena} {b c : Ledger} {i k u : Nat} {s s' : Stream} {slot : Slot} {pending : List Nat} {p : Product}
  {m ticks : Int}

/-! ## What is booked -/

/-- What a stream holds, with what was drawn from it and without what it drew. -/
def account (b : Ledger) (u : Nat) (p : Product) : Int := b.arena.held u p + b.drawn u p - b.taken u p

/-- Units that are drawn along a slot. -/
def units (b : Ledger) (m : Int) (i : Nat) (slot : Slot) : Int :=
  b.arena.held slot.supplier slot.product - (b.arena.drawSlot m i slot).held slot.supplier slot.product

/-- The books after a draw along one slot. -/
def afterDraw (b : Ledger) (m : Int) (i : Nat) (slot : Slot) : Ledger where
  arena := b.arena.drawSlot m i slot
  moves := ⟨i, slot.supplier, slot.product, b.units m i slot⟩ :: b.moves

theorem drawn_afterDraw (b : Ledger) (m : Int) (i : Nat) (slot : Slot) (u : Nat) (p : Product) :
    (b.afterDraw m i slot).drawn u p =
      b.drawn u p + if slot.supplier = u ∧ slot.product = p then b.units m i slot else 0 := by
  unfold drawn afterDraw
  rw [List.filter_cons]
  split
  next h => rw [if_pos (of_decide_eq_true h), List.map_cons, List.sum_cons, Int.add_comm]
  next h => rw [if_neg (fun hc => h (decide_eq_true hc)), Int.add_zero]

theorem taken_afterDraw (b : Ledger) (m : Int) (i : Nat) (slot : Slot) (u : Nat) (p : Product) :
    (b.afterDraw m i slot).taken u p =
      b.taken u p + if i = u ∧ slot.product = p then b.units m i slot else 0 := by
  unfold taken afterDraw
  rw [List.filter_cons]
  split
  next h => rw [if_pos (of_decide_eq_true h), List.map_cons, List.sum_cons, Int.add_comm]
  next h => rw [if_neg (fun hc => h (decide_eq_true hc)), Int.add_zero]

/-- A draw between two streams is entered on both sides. -/
theorem account_afterDraw (hs : b.arena.stream? i = some s) (hne : slot.supplier ≠ i) (u : Nat) (p : Product) :
    (b.afterDraw m i slot).account u p = b.account u p := by
  have hboth := Arena.held_drawSlot_add (m := m) hs hne
  unfold account
  rw [drawn_afterDraw, taken_afterDraw]
  change (b.arena.drawSlot m i slot).held u p + _ - _ = _
  unfold units
  cases Decidable.em (slot.product = p ∧ (u = i ∨ u = slot.supplier)) with
  | inr hnot =>
    rw [Arena.held_drawSlot_of_not hnot, if_neg fun hc => hnot ⟨hc.2, .inr hc.1.symm⟩,
      if_neg fun hc => hnot ⟨hc.2, .inl hc.1.symm⟩]
    omega
  | inl hsome =>
    obtain ⟨rfl, rfl | rfl⟩ := hsome
    · rw [if_neg fun hc => hne hc.1, if_pos ⟨rfl, rfl⟩]
      omega
    · rw [if_pos ⟨rfl, rfl⟩, if_neg fun hc => hne hc.1.symm]
      omega

/-- A cycle is entered at its stream. -/
theorem account_produce (hs : b.arena.stream? i = some s) (h : s.produce? = some s') (u : Nat) (p : Product) :
    account { b with arena := b.arena.modify i fun _ => s' } u p =
      b.account u p + if u = i then b.arena.net i p else 0 := by
  change (b.arena.modify i fun _ => s').held u p + b.drawn u p - b.taken u p =
    b.arena.held u p + b.drawn u p - b.taken u p + _
  split
  next hu =>
    subst u
    rw [Arena.held_produce hs h]
    omega
  next hu =>
    rw [Arena.held_modify_of_ne (Ne.symm hu)]
    omega

theorem account_withNext (b : Ledger) (i : Nat) (next : Int) (u : Nat) (p : Product) :
    account { b with arena := b.arena.withNext i next } u p = b.account u p := by
  change (b.arena.withNext i next).held u p + b.drawn u p - b.taken u p = _
  rw [Arena.held_of_buffer?_eq (Arena.buffer?_withNext b.arena i u next p)]
  rfl

theorem yields_inArena {α : Type} {act : Action Arena α} {S : α → Arena → Prop}
    (h : Action.Yields (· = b.arena) act S) :
    Action.Yields (· = b) (inArena act) fun x c => ∃ arena, S x arena ∧ c = { b with arena } := by
  refine Action.Triple.focus (fun c hc => hc ▸ h) ?_ fun _ _ _ _ _ => trivial
  rintro c rfl x arena hS
  exact ⟨arena, hS, rfl⟩

theorem yields_pullSlot (b : Ledger) (m : Int) (i : Nat) (slot : Slot) :
    Action.Yields (· = b) (pullSlot m i slot) fun _ c => c = b.afterDraw m i slot := by
  refine Action.Yields.bind_current fun before hbefore => ?_
  subst before
  refine Action.Yields.bind (yields_inArena (S := fun _ arena => arena = b.arena.drawSlot m i slot) ?_) fun _ => ?_
  · refine Action.Yields.bind (Action.Triple.update (Q := fun _ arena => arena = b.arena.openInput i slot.product m)
      fun _ harena => harena ▸ rfl) fun _ => ?_
    refine Action.Yields.bind_current fun arena harena => Action.Yields.bind_lift fun _ _ => ?_
    subst arena
    exact Action.Triple.update fun _ harena => harena ▸ rfl
  · refine Action.Triple.update fun c hc => ?_
    obtain ⟨arena, rfl, rfl⟩ := hc
    rfl

theorem taken_nonneg (h : ∀ move ∈ b.moves, 0 ≤ move.units) (u : Nat) (p : Product) : 0 ≤ b.taken u p := by
  refine List.sum_nonneg fun n hn => ?_
  obtain ⟨move, hmove, rfl⟩ := List.mem_map.1 hn
  exact h move (List.mem_of_mem_filter hmove)

/-! ## Visits -/

/-- What visiting stream `i` of `a` has made of the books `b`, after `k` cycles. The streams that are
`pending` are visited later; among them is all that the stream draws on. -/
structure Visit (a : Arena) (pending : List Nat) (i k : Nat) (b c : Ledger) : Prop where
  kept : Kept (List.range a.size) a c.arena
  account : ∀ u p, c.account u p = b.account u p + if u = i then k * a.net i p else 0
  drawn : ∀ u, ¬ a.Supplies u i → ∀ p, c.drawn u p = b.drawn u p
  taken : ∀ u p, (u = i → ∀ s, a.stream? i = some s → ∀ slot ∈ s.inputs, slot.product ≠ p) →
    c.taken u p = b.taken u p
  pending : ∀ v ∈ pending, ∀ q, 0 ≤ c.arena.held v q
  fair : ∀ move ∈ c.moves, 0 ≤ move.units

namespace Visit

variable (hsuppliers : ∀ v, a.Supplies v i → v ∈ pending) (hi : i ∉ pending)

include hsuppliers hi in
theorem afterDraw (h : Visit a pending i k b c) (hs : a.stream? i = some s) (hslot : slot ∈ s.inputs) :
    Visit a pending i k b (c.afterDraw m i slot) := by
  have hsupplies : a.Supplies slot.supplier i := ⟨s, hs, slot, hslot, rfl⟩
  have hmem := hsuppliers slot.supplier hsupplies
  have hne : slot.supplier ≠ i := fun heq => hi (heq ▸ hmem)
  obtain ⟨t, ht, _⟩ := h.kept.stream i s hs
  obtain ⟨hleft, hle, -⟩ := Arena.held_drawSlot (m := m) ht hne (h.pending _ hmem slot.product)
  refine ⟨?_, fun v q => ?_, fun v hv q => ?_, fun v q hv => ?_, fun v hv q => ?_, ?_⟩
  · exact h.kept.andThen (Kept.drawSlot c.arena i slot) (List.nil_subset _)
  · rw [account_afterDraw ht hne, h.account]
  · have hnot : ¬ (slot.supplier = v ∧ slot.product = q) := fun hc => hv (hc.1 ▸ hsupplies)
    rw [drawn_afterDraw, if_neg hnot, Int.add_zero, h.drawn v hv]
  · have hnot : ¬ (i = v ∧ slot.product = q) := fun hc => hv hc.1.symm s hs slot hslot hc.2
    rw [taken_afterDraw, if_neg hnot, Int.add_zero, h.taken v q hv]
  · cases Decidable.em (slot.product = q ∧ (v = i ∨ v = slot.supplier)) with
    | inr hnot => exact (Arena.held_drawSlot_of_not hnot).symm ▸ h.pending v hv q
    | inl hsome =>
      obtain ⟨rfl, rfl | rfl⟩ := hsome
      · exact absurd hv hi
      · exact hleft
  · refine List.forall_mem_cons.2 ⟨?_, h.fair⟩
    simp only [units]
    omega

/-- Before its first cycle a stream has changed nothing but its countdown. -/
theorem start (hkept : Kept (List.range a.size) a b.arena) (hpending : ∀ v ∈ pending, ∀ q, 0 ≤ b.arena.held v q)
    (hfair : ∀ move ∈ b.moves, 0 ≤ move.units) (hlt : i < a.size) (next : Int) :
    Visit a pending i 0 b { b with arena := b.arena.withNext i next } := by
  have hheld (u : Nat) (q : Product) : (b.arena.withNext i next).held u q = b.arena.held u q :=
    Arena.held_of_buffer?_eq (Arena.buffer?_withNext b.arena i u next q)
  refine ⟨?_, fun u q => ?_, fun _ _ _ => rfl, fun _ _ _ => rfl, fun v hv q => ?_, hfair⟩
  · exact hkept.andThen (Kept.withNext b.arena i next) fun _ hu =>
      List.mem_singleton.1 hu ▸ List.mem_range.2 hlt
  · rw [account_withNext, Int.natCast_zero, Int.zero_mul, ite_self, Int.add_zero]
  · exact (hheld v q).symm ▸ hpending v hv q

include hi in
theorem cycle (h : Visit a pending i k b c) (hs : c.arena.stream? i = some s) (hproduce : s.produce? = some s') :
    Visit a pending i (k + 1) b { c with arena := c.arena.modify i fun _ => s' } := by
  refine ⟨?_, fun u q => ?_, h.drawn, h.taken, fun v hv q => ?_, h.fair⟩
  · exact h.kept.andThen (Kept.produce hs hproduce) (List.nil_subset _)
  · rw [account_produce hs hproduce, h.account, h.kept.net]
    split
    · rw [Int.natCast_add, Int.natCast_one, Int.add_mul, Int.one_mul, Int.add_assoc]
    · rw [Int.add_zero]
  · have hne : i ≠ v := fun hiv => hi (hiv ▸ hv)
    exact (Arena.held_modify_of_ne hne q).symm ▸ h.pending v hv q

include hsuppliers hi in
theorem yields_pull : Action.Yields (Visit a pending i k b) (pull m i) fun _ => Visit a pending i k b := by
  refine Action.Yields.bind_current fun c hc => Action.Yields.bind_lift fun t ht => ?_
  obtain ⟨s, hs, hsame, -⟩ := hc.kept.stream_of_after (Arena.stream_eq_ok ht)
  have hslots :
      Action.Yields (Visit a pending i k b) (t.inputs.forM (pullSlot m i)) fun _ => Visit a pending i k b := by
    refine Action.Triple.forM fun slot hslot => Action.Triple.fix fun d hd => ?_
    refine (yields_pullSlot d m i slot).weaken (fun _ he => he) fun _ _ he => ?_
    exact he ▸ hd.afterDraw hsuppliers hi hs (hsame.inputs ▸ hslot)
  exact hslots.weaken (fun _ hd => hd ▸ hc) fun _ _ hd => hd

include hsuppliers hi in
theorem yields_attempt : Action.Yields (Visit a pending i k b) (attempt m i) fun done c =>
    Visit a pending i (if done then k + 1 else k) b c := by
  refine Action.Yields.bind (yields_pull hsuppliers hi) fun _ => Action.Yields.bind_current fun c hc =>
    Action.Yields.bind_lift fun s hs => ?_
  cases hproduce : s.produce? with
  | none => exact Action.Triple.pure fun _ hd => hd ▸ hc
  | some s' =>
    refine Action.Yields.bind (yields_inArena (S := fun _ arena => arena = c.arena.modify i fun _ => s')
      (Action.Triple.assign fun _ _ => rfl)) fun _ => Action.Triple.pure fun d hd => ?_
    obtain ⟨_, rfl, rfl⟩ := hd
    exact hc.cycle hi (Arena.stream_eq_ok hs) hproduce

include hsuppliers hi in
theorem yields_runCycles (n : Nat) : Action.Yields (Visit a pending i k b) (runCycles m i n k) fun completed c =>
    Visit a pending i completed b c := by
  induction n generalizing k with
  | zero => exact Action.Triple.pure fun _ hc => hc
  | succ n ih =>
    refine Action.Yields.bind (yields_attempt hsuppliers hi) fun done => ?_
    cases done with
    | true => exact ih
    | false => exact Action.Triple.pure fun _ hc => hc

include hsuppliers hi in
theorem yields_advance (hkept : Kept (List.range a.size) a b.arena)
    (hpending : ∀ v ∈ pending, ∀ q, 0 ≤ b.arena.held v q) (hfair : ∀ move ∈ b.moves, 0 ≤ move.units) :
    Action.Yields (· = b) (advance i ticks m) fun report c =>
      ∃ k s, a.stream? i = some s ∧ report = reportOf s i k ∧ Visit a pending i k b c := by
  refine Action.Yields.bind_current fun c hc => Action.Yields.bind_lift fun t ht =>
    Action.Yields.bind_lift fun period _ => Action.Yields.bind_lift fun (crossed, next) _ => ?_
  subst c
  obtain ⟨s, hs, hsame, -⟩ := hkept.stream_of_after (Arena.stream_eq_ok ht)
  have hlt : i < a.size := (List.getElem?_eq_some_iff.1 hs).1
  refine Action.Yields.bind (yields_inArena (S := fun _ arena => arena = b.arena.withNext i next)
    (Action.Triple.assign fun _ _ => rfl)) fun _ => ?_
  refine Action.Yields.bind (R := fun completed c => Visit a pending i completed b c) ?_ fun completed => ?_
  · refine (yields_runCycles (b := b) hsuppliers hi _).weaken (fun c hc => ?_) fun _ _ hc => hc
    obtain ⟨_, rfl, rfl⟩ := hc
    exact start hkept hpending hfair hlt next
  · refine Action.Triple.fix fun c hc => ?_
    refine Action.Yields.bind (yields_inArena (S := fun _ arena => arena = c.arena)
      (Arena.keeps_reportProduced i _).yields) fun _ => Action.Triple.pure fun d hd => ?_
    obtain ⟨_, rfl, rfl⟩ := hd
    refine ⟨completed, s, hs, ?_, hc⟩
    rw [reportOf, hsame.recipe, hsame.mult]

end Visit

/-! ## One visit after another -/

/-- Nothing has been booked at stream `u` since `b`. -/
structure Untouched (u : Nat) (b c : Ledger) : Prop where
  account : ∀ p, c.account u p = b.account u p
  drawn : ∀ p, c.drawn u p = b.drawn u p
  taken : ∀ p, c.taken u p = b.taken u p

theorem Untouched.trans {d : Ledger} (h : Untouched u b d) (h' : Untouched u d c) : Untouched u b c where
  account p := (h'.account p).trans (h.account p)
  drawn p := (h'.drawn p).trans (h.drawn p)
  taken p := (h'.taken p).trans (h.taken p)

/-- What the books `c` say of stream `i`, which was visited since `b` with this report. -/
structure Accounted (a : Arena) (b c : Ledger) (i : Nat) (report : StreamTick) : Prop where
  cycles : ∃ k s, a.stream? i = some s ∧ report = reportOf s i k ∧
    ∀ p, c.account i p = b.account i p + k * a.net i p
  drawn : ∀ p, c.drawn i p ≤ b.account i p + b.taken i p
  taken : ∀ s, a.stream? i = some s → ∀ p, (∀ slot ∈ s.inputs, slot.product ≠ p) → c.taken i p = b.taken i p

/-- A stream that is visited later is accounted for from before. -/
theorem Accounted.of_untouched {d : Ledger} {report : StreamTick} (h : Accounted a d c i report)
    (haccount : ∀ p, d.account i p = b.account i p) (htaken : ∀ p, d.taken i p = b.taken i p) :
    Accounted a b c i report := by
  obtain ⟨hcycles, hdrawn, hnone⟩ := h
  simp only [haccount, htaken] at hcycles hdrawn hnone
  exact ⟨hcycles, hdrawn, hnone⟩

namespace Visit

theorem account_of_ne (h : Visit a pending i k b c) (hu : u ≠ i) (p : Product) : c.account u p = b.account u p := by
  rw [h.account, if_neg hu, Int.add_zero]

theorem taken_of_ne (h : Visit a pending i k b c) (hu : u ≠ i) (p : Product) : c.taken u p = b.taken u p :=
  h.taken u p fun hui => absurd hui hu

/-- A visit books nothing but at the stream and at those that it draws on. -/
theorem untouched (h : Visit a pending i k b c) (hu : u ≠ i) (hnot : ¬ a.Supplies u i) : Untouched u b c where
  account := h.account_of_ne hu
  drawn := h.drawn u hnot
  taken := h.taken_of_ne hu

/-- If nothing is booked at it any more, a stream that has been visited is accounted for. -/
theorem accounted {d : Ledger} (h : Visit a pending i k b d) (hs : a.stream? i = some s)
    (hstock : ∀ p, 0 ≤ b.arena.held i p) (hirrefl : ¬ a.Supplies i i) (hlater : Untouched i d c) :
    Accounted a b c i (reportOf s i k) := by
  refine ⟨⟨k, s, hs, rfl, fun p => ?_⟩, fun p => ?_, fun t ht p hslots => ?_⟩
  · rw [hlater.account, h.account, if_pos rfl]
  · have hheld := hstock p
    rw [hlater.drawn, h.drawn i hirrefl]
    unfold Ledger.account
    omega
  · rw [hlater.taken]
    refine h.taken i p fun _ t' ht' => ?_
    obtain rfl := Option.some.inj (ht.symm.trans ht')
    exact hslots

end Visit

/-- Streams that are visited with takers first are each accounted for, and nothing is booked at others. -/
theorem yields_mapM_advance {is : List Nat} (hkept : Kept (List.range a.size) a b.arena)
    (hpending : ∀ v ∈ is, ∀ q, 0 ≤ b.arena.held v q) (hfair : ∀ move ∈ b.moves, 0 ≤ move.units)
    (hirrefl : ∀ i, ¬ a.Supplies i i) (hclosed : ∀ i ∈ is, ∀ v, a.Supplies v i → v ∈ is)
    (hpairs : is.Pairwise fun i x => ¬ a.Supplies i x) (hnodup : is.Nodup) :
    Action.Yields (· = b) (is.mapM fun i => advance i ticks m) fun reports c =>
      List.Forall₂ (Accounted a b c) is reports ∧ (∀ move ∈ c.moves, 0 ≤ move.units) ∧
        ∀ u ∉ is, Untouched u b c := by
  induction is generalizing b with
  | nil =>
    refine Action.Triple.pure fun c hc => ⟨List.Forall₂.nil, hc ▸ hfair, fun u _ => ?_⟩
    exact hc ▸ ⟨fun _ => rfl, fun _ => rfl, fun _ => rfl⟩
  | cons i is ih =>
    obtain ⟨hi, hnodup⟩ := List.nodup_cons.1 hnodup
    obtain ⟨hlater, hpairs⟩ := List.pairwise_cons.1 hpairs
    obtain ⟨hstock, hpending⟩ := List.forall_mem_cons.1 hpending
    -- What the streams of the rest draw on is in the rest: `i` was visited after its takers.
    have hsuppliers (v : Nat) (hv : a.Supplies v i) : v ∈ is :=
      (List.mem_cons.1 (hclosed i List.mem_cons_self v hv)).resolve_left fun hvi => hirrefl i (hvi ▸ hv)
    have hclosed' (j : Nat) (hj : j ∈ is) (v : Nat) (hv : a.Supplies v j) : v ∈ is :=
      (List.mem_cons.1 (hclosed j (List.mem_cons_of_mem _ hj) v hv)).resolve_left fun hvi =>
        hlater j hj (hvi ▸ hv)
    rw [List.mapM_cons]
    refine Action.Yields.bind (Visit.yields_advance hsuppliers hi hkept hpending hfair) fun report => ?_
    refine Action.Triple.fix fun d ⟨k, s, hs, hreport, hd⟩ => ?_
    refine Action.Yields.bind (ih hd.kept hd.pending hd.fair hclosed' hpairs hnodup) fun reports => ?_
    refine Action.Triple.pure fun c ⟨hreports, hfair, hrest⟩ => ⟨List.Forall₂.cons ?_ ?_, hfair, fun u hu => ?_⟩
    · exact hreport ▸ hd.accounted hs hstock (hirrefl i) (hrest i hi)
    · refine ((List.forall₂_and_left _ _).2 ⟨fun j hj => hj, hreports⟩).imp fun j r ⟨hj, hr⟩ => ?_
      have hne : j ≠ i := fun hji => hi (hji ▸ hj)
      exact hr.of_untouched (hd.account_of_ne hne) (hd.taken_of_ne hne)
    · obtain ⟨hne, hu⟩ := not_or.1 (mt List.mem_cons.2 hu)
      exact (hd.untouched hne fun h => hu (hsuppliers u h)).trans (hrest u hu)

/-- A call with takers first accounts for every stream. -/
theorem yields_tick (hstock : a.NonNegative) :
    Action.Yields (· = ⟨a, []⟩) (tick ticks .consumersFirst m) fun reports c =>
      (∀ move ∈ c.moves, 0 ≤ move.units) ∧
        ∀ u < a.size, ∃ report ∈ reports, report.index = u ∧ Accounted a ⟨a, []⟩ c u report := by
  refine Action.Yields.bind_current fun b hb => Action.Yields.bind_lift fun is his => ?_
  subst b
  obtain ⟨hbound, hacyclic, hfirst⟩ := Arena.visitOrder_consumersFirst_spec his
  have hperm := Arena.visitOrder_perm his
  have hnodup : is.Nodup := hperm.nodup_iff.2 List.nodup_range
  have hpairs : is.Pairwise fun i x => ¬ a.Supplies i x := by
    rw [← List.pairwise_reverse]
    exact (Arena.suppliersFirst_iff.1 hfirst).pairwise (List.nodup_reverse.2 hnodup) fun _ _ => List.not_mem_nil
  have hclosed (i : Nat) (_ : i ∈ is) (v : Nat) (hv : a.Supplies v i) : v ∈ is :=
    hperm.mem_iff.2 (List.mem_range.2 (hv.lt_size_of_bound (hbound i)))
  refine (yields_mapM_advance (Kept.refl _ a) (fun v _ q => hstock.held_nonneg v q)
    (fun _ hmove => absurd hmove List.not_mem_nil) (fun i hi => hacyclic i (.single hi)) hclosed hpairs
    hnodup).weaken (fun _ hb => hb) fun reports c ⟨hreports, hfair, _⟩ => ⟨hfair, fun u hu => ?_⟩
  obtain ⟨report, hmem, haccounted⟩ := Result.exists_of_forall₂ hreports.flip
    (hperm.mem_iff.2 (List.mem_range.2 hu))
  obtain ⟨k, s, -, rfl, -⟩ := haccounted.cycles
  exact ⟨_, hmem, rfl, haccounted⟩

end Ledger

namespace Arena

variable {ticks : Int}

/-- What a report says of a product. -/
theorem getD_reportOf (s : Stream) (i k : Nat) (p : Product) :
    (reportOf s i k).produced.getD p 0 = k * (s.recipe.yieldOf p * s.mult) := by
  simp only [reportOf, Table.getD, Table.get?_mapValues, Recipe.yieldOf]
  cases s.recipe.outputTotals.get? p with
  | none => simp only [Option.map_none, Option.getD_none, Int.zero_mul, Int.mul_zero]
  | some amount => rfl

/-- With takers first, no more of a product is drawn from a stream in one call than it held before, if it
does not consume the product, and what it made is still there after the call. What it held before is there
too, but for what was drawn, with what it drew itself along slots that its recipe has no use for. -/
theorem consumersFirst_lags {st : Logged Arena} (hstock : st.state.NonNegative) (ticks m : Int) :
    (st.state.Acyclic → (∀ i, st.state.SlotsBound i) →
      (∀ s ∈ st.state.streams, ∃ period, s.recipe.period = .ok period ∧ 1 ≤ period) →
      AnswersUnlessLong st.least ((tick ticks .consumersFirst m).outcome st)) ∧
    ∀ reports t, tick ticks .consumersFirst m st = .ok reports t →
      ∃ books : Ledger, books.arena = t.state ∧
        Ledger.tick ticks .consumersFirst m { st with state := ⟨st.state, []⟩ } =
          .ok reports { t with state := books } ∧
        ∀ u s p, st.state.stream? u = some s → p ∉ s.recipe.inputProducts →
          ∃ report ∈ reports, report.index = u ∧
            books.drawn u p ≤ st.state.held u p ∧
            t.state.held u p = st.state.held u p - books.drawn u p + report.produced.getD p 0 + books.taken u p ∧
            report.produced.getD p 0 ≤ t.state.held u p ∧
            ((∀ slot ∈ s.inputs, slot.product ≠ p) → books.taken u p = 0) := by
  refine ⟨fun hacyclic hbound hperiods => ?_, fun reports t h => ?_⟩
  · obtain ⟨_, -, -, -, horder⟩ := visitOrder_of_acyclic hbound hacyclic
    exact answers_tick ⟨hbound, fun i s hs => hperiods s (List.mem_of_getElem? hs)⟩ horder
  obtain ⟨books, harena, hbooks⟩ := Ledger.tick_of_ok h
  obtain ⟨hfair, haccounted⟩ := (Ledger.yields_tick hstock).of_eq_ok rfl hbooks
  refine ⟨books, harena, hbooks, fun u s p hs hp => ?_⟩
  obtain ⟨report, hmem, hindex, hcycles, hdrawn, hnone⟩ := haccounted u (List.getElem?_eq_some_iff.1 hs).1
  obtain ⟨k, s', hs', rfl, haccount⟩ := hcycles
  obtain rfl := Option.some.inj (hs.symm.trans hs')
  have hnet : k * st.state.net u p = (reportOf s u k).produced.getD p 0 := by
    rw [getD_reportOf, net_eq hs, Stream.net, Recipe.requiredOf_eq_zero hp, Int.sub_zero, Int.mul_comm s.mult]
  have hopening : (⟨st.state, []⟩ : Ledger).account u p = st.state.held u p := by
    change st.state.held u p + 0 - 0 = _
    omega
  have hclosing : books.account u p = t.state.held u p + books.drawn u p - books.taken u p := by
    rw [← harena]
    rfl
  have hmade : books.account u p = st.state.held u p + k * st.state.net u p := hopening ▸ haccount p
  have hleft : books.drawn u p ≤ st.state.held u p + 0 := hopening ▸ hdrawn p
  have htaken : 0 ≤ books.taken u p := Ledger.taken_nonneg hfair u p
  refine ⟨_, hmem, hindex, ?_, ?_, ?_, hnone s hs p⟩
  all_goals omega

/-- A mine with three ore, and a smelter that draws on it. -/
def stockedMine : Arena :=
  ⟨[(Stream.fresh (Recipe.every 1 Int.one_pos [] [⟨⟨0, 0⟩, 1⟩]) [] 2 8).gain ⟨0, 0⟩ 3,
    Stream.fresh (Recipe.every 1 Int.one_pos [⟨⟨0, 0⟩, 2⟩] [⟨⟨1, 0⟩, 1⟩]) [⟨⟨0, 0⟩, 0⟩] 1 8]⟩

/-- The smelter may have the three ore. The ten that are dug after it are still there. -/
theorem consumersFirst_lags_stockedMine :
    stockedMine.NonNegative ∧
      ∃ reports t books, tick 5 .consumersFirst 8 { state := stockedMine } = .ok reports t ∧
        Ledger.tick 5 .consumersFirst 8 { state := ⟨stockedMine, []⟩ } = .ok reports { t with state := books } ∧
        t.state.held 0 ⟨0, 0⟩ = 10 ∧ ∃ report ∈ reports, report.index = 0 ∧ books.drawn 0 ⟨0, 0⟩ ≤ 3 ∧
          report.produced.getD ⟨0, 0⟩ 0 = 7 + books.drawn 0 ⟨0, 0⟩ := by
  have hstock : stockedMine.NonNegative := by decide
  have hheld : stockedMine.held 0 ⟨0, 0⟩ = 3 := by decide
  have hrun : (tick 5 .consumersFirst 8).wp (fun _ t => t.state.held 0 ⟨0, 0⟩ = 10) (fun _ _ => False)
      { state := stockedMine } := by
    decide +kernel
  obtain ⟨reports, t, h, hleft⟩ := hrun.exists_ok
  obtain ⟨-, hlags⟩ := @consumersFirst_lags { state := stockedMine } hstock 5 8
  obtain ⟨books, -, hbooks, hall⟩ := hlags reports t h
  obtain ⟨report, hmem, hindex, hdrawn, hfinal, -, hnone⟩ := hall 0 _ ⟨0, 0⟩ rfl List.not_mem_nil
  have htaken := hnone fun _ hslot => absurd hslot List.not_mem_nil
  refine ⟨hstock, reports, t, books, h, hbooks, hleft, report, hmem, hindex, ?_, ?_⟩
  all_goals
    dsimp only at hdrawn hfinal
    omega

/-- A forge that is bound to another one for what they both make. -/
def boundForge : Arena :=
  ⟨[(Stream.fresh (Recipe.every 1 Int.one_pos [] [⟨⟨1, 0⟩, 1⟩]) [] 1 8).gain ⟨1, 0⟩ 3,
    Stream.fresh (Recipe.every 1 Int.one_pos [⟨⟨0, 0⟩, 1⟩] [⟨⟨1, 0⟩, 1⟩]) [⟨⟨1, 0⟩, 0⟩] 1 8]⟩

/-- It makes nothing and nothing is drawn from it, but it has drawn the three units of the other. -/
theorem tick_boundForge :
    boundForge.Acyclic ∧ boundForge.InBounds ∧ boundForge.held 1 ⟨1, 0⟩ = 0 ∧
      (∀ s, boundForge.stream? 1 = some s → (⟨1, 0⟩ : Product) ∉ s.recipe.inputProducts) ∧
      ∃ reports t books, tick 1 .consumersFirst 8 { state := boundForge } = .ok reports t ∧
        Ledger.tick 1 .consumersFirst 8 { state := ⟨boundForge, []⟩ } = .ok reports { t with state := books } ∧
        (∀ report ∈ reports, report.index = 1 → report.produced.getD ⟨1, 0⟩ 0 = 0) ∧
        books.drawn 1 ⟨1, 0⟩ = 0 ∧ t.state.held 1 ⟨1, 0⟩ = 3 := by
  have hearlier : boundForge.BindsEarlier := by decide
  have hrun : (tick 1 .consumersFirst 8).wp (fun reports t =>
        (∀ report ∈ reports, report.index = 1 → report.produced.getD ⟨1, 0⟩ 0 = 0) ∧ t.state.held 1 ⟨1, 0⟩ = 3)
      (fun _ _ => False) { state := boundForge } := by
    decide +kernel
  have hbooked : (Ledger.tick 1 .consumersFirst 8).wp (fun _ c => c.state.drawn 1 ⟨1, 0⟩ = 0) (fun _ _ => False)
      { state := ⟨boundForge, []⟩ } := by
    decide +kernel
  obtain ⟨reports, t, h, hnothing, hleft⟩ := hrun.exists_ok
  obtain ⟨books, -, hbooks⟩ := Ledger.tick_of_ok h
  obtain ⟨_, _, hsame, hdrawn⟩ := hbooked.exists_ok
  obtain ⟨-, rfl⟩ := EStateM.Result.ok.inj (hbooks.symm.trans hsame)
  refine ⟨hearlier.acyclic, by decide, by decide, fun s hs => ?_, reports, t, books, h, hbooks, hnothing, hdrawn,
    hleft⟩
  obtain rfl := Option.some.inj hs
  decide

end Arena

end Conveyor
