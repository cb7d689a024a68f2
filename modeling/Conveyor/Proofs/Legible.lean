-- SUMMARY: Where capacities are short enough to be written, so is all that passing time reports, and it answers.
import Conveyor.Proofs.Capacity
import Conveyor.Proofs.Efficiency.Upstream
import Conveyor.Proofs.Factory.Pace

/-!
# Reports that can be written

What a stream has produced in a call is in its buffers when it reports: nobody draws from them meanwhile, and
it consumes none of it itself. So as long as the capacities of an arena together are short enough to be
written, every report is, and nothing stops the call.
-/

namespace Conveyor

theorem IsWritable.of_le {m n : Int} (hm : 0 ≤ m) (h : m ≤ n) (hn : IsWritable n) : IsWritable m := by
  unfold IsWritable at *
  omega

theorem written_of_isWritable {n : Int} (h : IsWritable n) : written n = .ok (toString n) := by
  unfold written
  rw [if_pos h]

theorem Buffer.written_of_isWritable {b : Buffer} (hcurrent : IsWritable b.current) (hmax : IsWritable b.max) :
    b.written = .ok b.text := by
  unfold Buffer.written
  rw [Conveyor.written_of_isWritable hcurrent, Conveyor.written_of_isWritable hmax]
  rfl

/-- The report is about a stream of the arena and in figures that can be written. -/
structure StreamTick.Legible (a : Arena) (r : StreamTick) : Prop where
  outputs : ∃ s, a.stream? r.index = some s ∧ r.produced.keys = s.recipe.outputTotals.keys
  units : ∀ e ∈ r.produced.entries, IsWritable e.2

theorem StreamTick.Legible.of_alike {a b : Arena} {r : StreamTick} (h : r.Legible a) (hab : a.Alike b) :
    r.Legible b := by
  obtain ⟨⟨s, hs, hkeys⟩, hunits⟩ := h
  obtain ⟨t, ht, hst⟩ := hab.exists_stream hs
  exact ⟨⟨t, ht, hst.recipe ▸ hkeys⟩, hunits⟩

namespace Arena

variable {a b : Arena} {i n k : Nat} {m ticks : Int} {B : Nat} {s : Stream} {st : Logged Arena} {is : List Nat}

/-- Time can pass, no stream consumes what it yields, and what all buffers can hold together is short enough
to be written. -/
structure Legible (m : Int) (B : Nat) (a : Arena) : Prop where
  built : a.Built
  capped : a.Capped m B
  outputs : ∀ i s, a.stream? i = some s → ∀ p ∈ s.recipe.outputTotals.keys,
    IsWritable p.id ∧ s.recipe.requiredOf p = 0
  short : IsWritable (B * a.totalCopies)

theorem Kept.alike (h : Kept is a b) : a.Alike b :=
  Carries.alike_of_size_eq (fun i s hs =>
    let ⟨t, ht, hsame, _⟩ := h.stream i s hs
    ⟨t, ht, hsame.recipe, hsame.inputs, hsame.mult⟩) h.size

/-- Streams that differ in stock and countdown at most are the same at as many copies. -/
theorem Alike.raised (h : a.Alike b) : a.Raised b where
  size := h.size_eq
  stream i s hs := by
    obtain ⟨t, ht, hst⟩ := h.exists_stream hs
    exact ⟨t, ht, hst.recipe, hst.inputs, Int.le_of_eq hst.mult.symm⟩

theorem Alike.totalCopies (h : a.Alike b) : b.totalCopies = a.totalCopies := by
  unfold Arena.totalCopies
  have hstreams := h.forall₂
  generalize a.streams = xs, b.streams = ys at hstreams
  induction hstreams with
  | nil => rfl
  | cons hst _ ih => rw [List.map_cons, List.map_cons, List.sum_cons, List.sum_cons, hst.mult, ih]

namespace Legible

theorem of_kept (h : a.Legible m B) (hkept : Kept is a b) (hb : b.Capped m B) : b.Legible m B where
  built := hkept.raised.built h.built
  capped := hb
  outputs i t ht := by
    obtain ⟨s, hs, hsame, _⟩ := hkept.stream_of_after ht
    exact hsame.recipe ▸ h.outputs i s hs
  short := hkept.alike.totalCopies ▸ h.short

theorem isWritable (h : a.Legible m B) {units : Int} (hlow : 0 ≤ units) (hhigh : units ≤ B * a.totalCopies) :
    IsWritable units := h.short.of_le hlow hhigh

/-- Every buffer can be written. -/
theorem isWritable_buffer (h : a.Legible m B) {p : Product} {held : Buffer} (hheld : a.buffer i p = .ok held) :
    IsWritable held.current ∧ IsWritable held.max := by
  obtain ⟨hbounds, hmax⟩ := h.capped.buffer_le (buffer?_eq_some_iff.2 (buffer_eq_ok.1 hheld))
  exact ⟨h.isWritable hbounds.current_nonneg (hbounds.current_le.trans hmax),
    h.isWritable (hbounds.current_nonneg.trans hbounds.current_le) hmax⟩

end Legible

/-! ## One stream -/

/-- Units that so many cycles have yielded are in stock after them. -/
theorem Legible.isWritable_reportOf (ha : a.Legible m B) (hs : a.stream? i = some s) (hb : b.Legible m B)
    (hstock : ∀ p, b.stock p = a.stock p + k * a.net i p) :
    ∀ e ∈ (reportOf s i k).produced.entries, e.1 ∈ s.recipe.outputTotals.keys ∧ IsWritable e.2 := by
  intro e he
  obtain ⟨⟨p, amount⟩, hentry, rfl⟩ := List.mem_map.1 he
  have hget : s.recipe.outputTotals.get? p = some amount := Table.get?_eq_some_iff.2 hentry
  have hkey : p ∈ s.recipe.outputTotals.keys := List.mem_map_of_mem hentry
  obtain ⟨_, hunused⟩ := ha.outputs i s hs p hkey
  have hnet : a.net i p = amount * s.mult := by
    rw [net_eq hs, Stream.net, hunused, Recipe.yieldOf_eq_of_get? hget]
    ring
  have hpositive : 0 ≤ amount * s.mult := by
    have hyield := Recipe.yieldOf_nonneg (ha.built.stream i s hs).positive p
    have hcopies := (ha.built.stream i s hs).copies
    rw [Recipe.yieldOf_eq_of_get? hget] at hyield
    positivity
  have hbefore := (ha.capped.stock_le p).1
  have hafter := (hb.capped.stock_le p).2
  rw [hstock p, hnet] at hafter
  have hunits : k * (amount * s.mult) ≤ B * b.totalCopies := by omega
  exact ⟨hkey, hb.isWritable (Int.mul_nonneg (Int.natCast_nonneg k) hpositive) hunits⟩

/-- A report of what is in buffers, in figures that can be written, is logged or passed over. -/
theorem wp_reportProduced_of_writable {produced : Table Product Int} (h : st.state.Legible m B)
    (hheld : ∀ e ∈ produced.entries, 0 < e.2 → ∃ held, st.state.buffer i e.1 = .ok held)
    (hproduced : ∀ e ∈ produced.entries, IsWritable e.1.id ∧ IsWritable e.2) :
    (reportProduced i produced).wp (fun _ t => t.state = st.state) (fun _ _ => False) st := by
  refine Action.wp.bind_current (Action.wp.forM (fun e he t ht => ?_) rfl)
  refine Action.wp.ite (fun hpos => ?_) fun _ => Action.wp.pure ht
  obtain ⟨held, hheld⟩ := hheld e he hpos
  obtain ⟨hid, hunits⟩ := hproduced e he
  obtain ⟨hcurrent, hmax⟩ := h.isWritable_buffer hheld
  refine Action.wp.bind_ok hheld (Action.wp.report_of_writable ?_ ht ht)
  simp only [Event.isWritable, hid, hunits, hcurrent, hmax, decide_true, Bool.and_self]

/-- To advance a stream answers with a report that can be written. -/
theorem wp_advance_of_legible (h : st.state.Legible m B) (hm : 0 ≤ m) (hi : i < st.state.size) (ticks : Int) :
    (advance i ticks m).wp
      (fun r t => (r.index = i ∧ r.Legible st.state) ∧ t.state.Legible m B ∧ st.state.Alike t.state)
      (fun _ _ => False) st := by
  obtain ⟨s, hs⟩ : ∃ s, st.state.stream? i = some s := ⟨_, List.getElem?_eq_getElem hi⟩
  obtain ⟨period, hperiod, hpos⟩ := h.built.ready.period i s hs
  obtain ⟨crossed, next, hclock⟩ := Clock.exists_advance hpos (s.next.getD period) ticks
  obtain ⟨k, _, b, hcycled, hkept⟩ := exists_cycled_of_bound (m := m) hs (h.built.ready.bound i)
    (if s.recipe.isInert then 0 else crossed.toNat)
  -- The countdown is set before the cycles are run, and the report comes after them.
  have hwaiting : (st.state.withNext i next).Capped m B := (capped_closedUnderTime hm).setNext _ h.capped i next
  have hstart : (st.state.withNext i next).Legible m B := h.of_kept (Kept.withNext _ i next) hwaiting
  have hend : (b.withNext i next).Legible m B := h.of_kept (hkept.trans (Kept.withNext b i next))
    (hcycled.of_yields ((capped_closedUnderTime hm).keeps_runCycles i _ 0).yields hwaiting)
  have hprogress := (hcycled.of_yields (yields_runCycles _ i _ 0) (Progress.zero (st.state.withNext i next) i)).2
  have hfigures := hstart.isWritable_reportOf (stream?_withNext hs next) hend hprogress.stock
  refine wp_advance_of_report hs hperiod hclock hcycled (fun j hj => ?_) fun f hf => nomatch hf
  obtain rfl := Except.ok.inj hj
  refine (wp_reportProduced_of_writable hend (hcycled.exists_buffer hs next) fun e he => ?_).weaken (fun _ t ht => ?_)
    fun _ _ hf => hf
  · exact ⟨(h.outputs i s hs e.1 (hfigures e he).1).1, (hfigures e he).2⟩
  · refine ⟨⟨rfl, ⟨s, hs, Table.keys_mapValues _ _⟩, fun e he => (hfigures e he).2⟩, ?_⟩
    rw [ht]
    exact ⟨hend, (hkept.trans (Kept.withNext b i next)).alike⟩

/-! ## Whole calls -/

variable (st) in
/-- A call answers with reports that can be written, and can be made again. -/
theorem wp_tick_of_legible (h : st.state.Legible m B) (hm : 0 ≤ m) (ticks : Int) (order : TickOrder) :
    (tick ticks order m).wp
      (fun rs t => (∀ r ∈ rs, r.Legible st.state) ∧ t.state.Legible m B ∧ st.state.Alike t.state)
      (fun _ _ => False) st := by
  obtain ⟨is, his⟩ := h.built.bindsEarlier.exists_visitOrder order
  have hlt (i : Nat) (hi : i ∈ is) : i < st.state.size :=
    List.mem_range.1 ((visitOrder_perm his).mem_iff.1 hi)
  let Still (t : Logged Arena) : Prop := t.state.Legible m B ∧ st.state.Alike t.state
  have hstep (i : Nat) (hi : i ∈ is) (t : Logged Arena) (ht : Still t) :
      (advance i ticks m).wp (fun r u => r.Legible st.state ∧ Still u) (fun _ _ => False) t := by
    obtain ⟨hlegible, halike⟩ := ht
    obtain ⟨s, hs⟩ : ∃ s, st.state.stream? i = some s := ⟨_, List.getElem?_eq_getElem (hlt i hi)⟩
    obtain ⟨r, hr, _⟩ := halike.exists_stream hs
    refine (wp_advance_of_legible hlegible hm (lt_size_of_stream? hr) ticks).weaken ?_ fun _ _ hf => hf
    exact fun r u hu => ⟨hu.1.2.of_alike halike.symm, hu.2.1, halike.trans hu.2.2⟩
  refine Action.wp.bind_current (Action.wp.bind_ok his ?_)
  refine (Action.wp.mapM hstep ⟨h, fun i => AlikeAt.refl _ i⟩).weaken (fun rs u hu => ?_) fun _ _ hf => hf
  refine ⟨fun r hr => ?_, hu.2⟩
  obtain ⟨_, _, hlegible⟩ := Result.exists_of_forall₂ hu.1 hr
  exact hlegible

end Arena

end Conveyor
