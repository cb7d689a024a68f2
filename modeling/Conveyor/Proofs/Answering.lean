-- SUMMARY: When advancing streams answers: where slots are bound to streams and periods are whole ticks.
import Conveyor.Proofs.Turn

/-!
# Calls that answer

Drawing fails only at a slot that is bound to no stream, and the clock only at a period without ticks.
Both can be told before the call, and the call changes neither. What is left is the log, which may be
given a figure that is too long to be written.
-/

namespace Conveyor

/-- Time can be counted in periods of one tick or more. -/
theorem Clock.exists_advance {period : Int} (hp : 1 ≤ period) (next ticks : Int) :
    ∃ crossed left, advance next period ticks = .ok (crossed, left) := by
  have hboundary (ticks : Int) : ∃ crossed left, fromBoundary period ticks = .ok (crossed, left) := by
    unfold fromBoundary
    rw [if_neg (show ¬ period = 0 by omega)]
    split <;> exact ⟨_, _, rfl⟩
  unfold advance
  split
  · exact ⟨_, _, rfl⟩
  split
  · exact hboundary ticks
  split
  · exact ⟨_, _, rfl⟩
  split
  · exact ⟨_, _, rfl⟩
  · obtain ⟨crossed, left, h⟩ := hboundary (ticks - next)
    exact ⟨crossed + 1, left, by rw [h]; rfl⟩

namespace Arena

variable {a b : Arena} {i : Nat} {s : Stream} {m ticks : Int}

/-- Attempts all end well, and no more of them complete a cycle than are made. -/
theorem exists_cycled_of_bound (hs : a.stream? i = some s) (hbound : a.SlotsBound i) (n : Nat) :
    ∃ k ≤ n, ∃ b, Cycled m i n a (.ok k) b ∧ Kept [] a b := by
  induction n generalizing a s with
  | zero => exact ⟨0, Nat.le_refl 0, a, Cycled.zero m i a, Kept.refl [] a⟩
  | succ n ih =>
    obtain ⟨k, b, hturn⟩ := exists_turn (m := m) hs
    have hkept := Kept.turn hturn
    obtain ⟨t, ht, _⟩ := hkept.stream i s hs
    obtain ⟨j, hj, c, hrest, hkept'⟩ := ih ht (hbound.of_kept hkept)
    have hattempt := hturn.ends_attempt hbound
    cases hturn with
    | stalls =>
      exact ⟨0, Nat.zero_le _, _, fun count next => (hattempt next).bind (Action.Ends.pure count), hkept⟩
    | runs =>
      refine ⟨j + 1, Nat.succ_le_succ hj, c, fun count next => ?_, hkept.trans hkept'⟩
      have hcount := hrest (count + 1) next
      rw [Except.map, Nat.add_right_comm, Nat.add_assoc] at hcount
      exact (hattempt next).bind hcount

/-- Every slot is bound to a stream, and every period is one tick or more. -/
structure Ready (a : Arena) : Prop where
  bound : ∀ i, a.SlotsBound i
  period : ∀ i s, a.stream? i = some s → ∃ period, s.recipe.period = .ok period ∧ 1 ≤ period

theorem Ready.of_kept (h : a.Ready) {is : List Nat} (hkept : Kept is a b) : b.Ready where
  bound i := (h.bound i).of_kept hkept
  period i t ht := by
    obtain ⟨s, hs, hsame, _⟩ := hkept.stream_of_after ht
    exact hsame.recipe ▸ h.period i s hs

/-- To advance a stream answers, unless its report is too long to be written. -/
theorem wp_advance_of_ready {st : Logged Arena} (h : st.state.Ready) (hi : i < st.state.size) (ticks m : Int) :
    (advance i ticks m).wp
      (fun r t => r.index = i ∧ t.least = st.least ∧ Kept [i] st.state t.state)
      (fun f t => (t.least = st.least ∧ Kept [i] st.state t.state) ∧
        f = .tooManyDigits ∧ st.least.rank ≤ Level.debug.rank) st := by
  obtain ⟨s, hs⟩ : ∃ s, st.state.stream? i = some s := ⟨_, List.getElem?_eq_getElem hi⟩
  obtain ⟨period, hperiod, hpos⟩ := h.period i s hs
  obtain ⟨crossed, next, hclock⟩ := Clock.exists_advance hpos (s.next.getD period) ticks
  obtain ⟨k, _, b, hcycled, hkept⟩ := exists_cycled_of_bound (m := m) hs (h.bound i)
    (if s.recipe.isInert then 0 else crossed.toNat)
  have hadvanced : Kept [i] st.state (b.withNext i next) := hkept.trans (Kept.withNext b i next)
  refine (wp_advance hs hperiod hclock hcycled).weaken ?_ ?_
  · rintro _ t ⟨⟨hstate, hleast⟩, j, _, rfl⟩
    exact ⟨rfl, hleast, hstate ▸ hadvanced⟩
  · rintro f t ⟨⟨hstate, hleast⟩, hf⟩
    exact ⟨⟨hleast, hstate ▸ hadvanced⟩, hf.resolve_left nofun⟩

theorem map_index {is : List Nat} {reports : List StreamTick}
    (h : List.Forall₂ (fun i report => report.index = i) is reports) : reports.map StreamTick.index = is := by
  have hindices : List.Forall₂ (· = ·) (reports.map StreamTick.index) is :=
    List.forall₂_map_left_iff.2 h.flip
  rwa [List.forall₂_eq_eq_eq] at hindices

/-- To advance streams one after another answers with a report of each, unless one of them is too long to
be written. -/
theorem wp_mapM_advance {st : Logged Arena} (h : st.state.Ready) {is : List Nat}
    (his : ∀ i ∈ is, i < st.state.size) :
    (is.mapM fun i => advance i ticks m).wp (fun rs _ => rs.map StreamTick.index = is)
      (fun f _ => f = .tooManyDigits ∧ st.least.rank ≤ Level.debug.rank) st := by
  let Still (t : Logged Arena) : Prop := t.state.Ready ∧ t.state.size = st.state.size ∧ t.least = st.least
  have hstep (i : Nat) (hi : i ∈ is) (t : Logged Arena) (ht : Still t) :
      (advance i ticks m).wp (fun r u => r.index = i ∧ Still u)
        (fun f _ => f = .tooManyDigits ∧ st.least.rank ≤ Level.debug.rank) t := by
    obtain ⟨hready, hsize, hleast⟩ := ht
    refine (wp_advance_of_ready hready (hsize.symm ▸ his i hi) ticks m).weaken ?_ ?_
    · rintro r u ⟨hindex, hleast', hkept⟩
      exact ⟨hindex, hready.of_kept hkept, hkept.size.trans hsize, hleast'.trans hleast⟩
    · exact fun f u hf => hleast ▸ hf.2
  exact (Action.wp.mapM hstep ⟨h, rfl, rfl⟩).weaken (fun rs u hu => map_index hu.1) fun _ _ hf => hf

/-! ## Whole calls -/

variable {st t : Logged Arena} {order : TickOrder} {is : List Nat} {f : Fault}

/-- A call without an order of visits changes nothing. -/
theorem tick_of_unordered (h : st.state.visitOrder order = .error f) : tick ticks order m st = .error f st := by
  change ((liftM (st.state.visitOrder order) : Action Arena (List Nat)) >>= _) st = _
  rw [h]
  rfl

/-- The reports of a call are in the order of the visits. -/
theorem index_of_tick {reports : List StreamTick} (his : st.state.visitOrder order = .ok is)
    (h : tick ticks order m st = .ok reports t) : reports.map StreamTick.index = is := by
  have hyields : Action.Yields (· = st.state) (tick ticks order m) fun reports _ =>
      reports.map StreamTick.index = is := by
    unfold tick
    apply Action.Yields.bind_current
    intro a ha
    subst a
    apply Action.Yields.bind_lift
    intro js hjs
    obtain rfl := Except.ok.inj (his.symm.trans hjs)
    have hnodup := (visitOrder_perm his).nodup_iff.2 List.nodup_range
    refine (yields_mapM_advance hnodup st.state).weaken (fun _ hb => hb) fun reports _ h => ?_
    obtain ⟨k, hreports, -⟩ := h
    exact map_index (hreports.imp fun _ _ hreport => hreport.index)
  exact hyields.of_eq_ok rfl h

theorem answers_tick (h : st.state.Ready) (his : st.state.visitOrder order = .ok is) :
    AnswersUnlessLong st.least ((tick ticks order m).outcome st) := by
  have hlt (i : Nat) (hi : i ∈ is) : i < st.state.size :=
    List.mem_range.1 ((visitOrder_perm his).mem_iff.1 hi)
  have hwp : (tick ticks order m).wp (fun rs _ => rs.map StreamTick.index = is)
      (fun f _ => f = .tooManyDigits ∧ st.least.rank ≤ Level.debug.rank) st :=
    Action.wp.bind_current (Action.wp.bind_ok his (wp_mapM_advance h hlt))
  exact fun f hf => hwp.of_outcome_error hf

end Arena

end Conveyor
