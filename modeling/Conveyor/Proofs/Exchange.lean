-- SUMMARY: Where no stream supplies two others, all orders with suppliers first come to the same.
import Conveyor.Proofs.Footprint

/-!
# Exchanging visits

Two streams that are neither supplier and taker nor fed by one supplier can be visited in either order. If
no stream supplies two others, this is true of any two streams that both have their suppliers behind them.
So the stream that one order visits first can be brought to the front of any other order, visit by visit,
and after it the rest of the one order is an order for what is left.
-/

namespace Conveyor

/-- Run an action and answer how it ended. -/
def Action.settle {σ α : Type} (act : Action σ α) : Action σ (Except Fault α) :=
  fun s => .ok (act.outcome s) (act.after s)

namespace Arena

variable {a b : Arena} {done is js before after : List Nat} {i : Nat} {s t st : Logged Arena} {ticks m : Int}
  {report : Nat → Except Fault StreamTick}

/-! ## Visits -/

/-- Streams that are advanced one after another end as `report` says and leave `b`. -/
def Settles (ticks m : Int) (report : Nat → Except Fault StreamTick) (b : Arena) : List Nat → Logged Arena → Prop
  | [], st => st.state = b
  | i :: is, st =>
    (advance i ticks m).outcome st = report i ∧ Settles ticks m report b is ((advance i ticks m).after st)

theorem Settles.of_state_eq (h : Settles ticks m report b is s) (hstate : s.state = t.state)
    (hleast : s.least = t.least) : Settles ticks m report b is t := by
  induction is generalizing s t with
  | nil => exact hstate.symm.trans h
  | cons i is ih =>
    obtain ⟨hout, hafter⟩ := advance_of_state_eq hstate hleast i ticks m
    refine ⟨hout ▸ h.1, ih h.2 hafter ?_⟩
    rw [least_advance, least_advance, hleast]

/-- A stream may be visited later, after streams with footprints apart. -/
theorem Settles.middle (h : Settles ticks m report b (i :: (before ++ after)) st)
    (hapart : ∀ x ∈ before, ∀ k ∈ st.state.footprint i, k ∉ st.state.footprint x) :
    Settles ticks m report b (before ++ i :: after) st := by
  induction before generalizing st with
  | nil => exact h
  | cons x before ih =>
    obtain ⟨hi, hx, hrest⟩ := h
    obtain ⟨hapartx, hapart⟩ := List.forall_mem_cons.1 hapart
    have hapartx' : ∀ k ∈ st.state.footprint x, k ∉ st.state.footprint i := fun k hk hk' => hapartx k hk' hk
    have hfootprint := footprint_advance (j := i) x ticks m st
    refine ⟨(advance_after hapartx ticks m).1 ▸ hx, ih ⟨?_, ?_⟩ fun y hy k hk hk' => ?_⟩
    · rw [(advance_after hapartx' ticks m).1, hi]
    · refine hrest.of_state_eq (advance_comm hapartx ticks m) ?_
      simp only [least_advance]
    · exact hapart y hy k ((hfootprint k).1 hk) ((footprint_advance x ticks m st k).1 hk')

/-- Where no stream supplies two others, any two orders in which suppliers come first settle the same. -/
theorem Settles.of_perm (hsingle : ∀ u i j, a.Supplies u i → a.Supplies u j → i = j) (hraised : a.Raised st.state)
    (h : Settles ticks m report b is st) (his : a.Follows done is) (hjs : a.Follows done js) (hperm : is.Perm js)
    (hnodup : is.Nodup) (hdone : ∀ i ∈ is, i ∉ done) : Settles ticks m report b js st := by
  induction is generalizing done js st with
  | nil => exact (List.nil_perm.1 hperm) ▸ h
  | cons i is ih =>
    obtain ⟨before, after, rfl⟩ := List.append_of_mem (hperm.subset List.mem_cons_self)
    have hnodup' : (before ++ i :: after).Nodup := hperm.nodup_iff.1 hnodup
    have hbefore : ∀ x ∈ before, ¬ a.Supplies i x := fun x hx =>
      (List.pairwise_append.1 (hjs.pairwise hnodup' fun j hj => hdone j (hperm.mem_iff.2 hj))).2.2 x hx i
        List.mem_cons_self
    have hrest : is.Perm (before ++ after) :=
      (List.perm_cons i).1 (hperm.trans List.perm_middle)
    refine Settles.middle ⟨h.1, ih (hraised.trans (raised_advance i ticks m st)) h.2 his.2 hjs.of_middle hrest
      (List.nodup_cons.1 hnodup).2 fun x hx hmem => ?_⟩ fun x hx k hk hk' => ?_
    · rcases List.mem_cons.1 hmem with rfl | hmem
      · exact (List.nodup_cons.1 hnodup).1 hx
      · exact hdone x (List.mem_cons_of_mem _ hx) hmem
    · have hx' : x ∈ is := hrest.mem_iff.2 (List.mem_append_left _ hx)
      have hne : x ≠ i := fun hxi => (List.nodup_cons.1 hnodup).1 (hxi ▸ hx')
      rw [mem_footprint_iff, hraised.supplies_iff] at hk hk'
      rcases hk with rfl | hk
      · exact hk'.elim (fun hki => hne hki.symm) (hbefore x hx)
      · rcases hk' with rfl | hk'
        · exact hdone k (List.mem_cons_of_mem _ hx') (his.1 k hk)
        · exact hne (hsingle k x i hk' hk)

theorem Settles.of_report_eq {report' : Nat → Except Fault StreamTick} (h : Settles ticks m report b is st)
    (hreport : ∀ i ∈ is, report i = report' i) : Settles ticks m report' b is st := by
  induction is generalizing st with
  | nil => exact h
  | cons i is ih =>
    obtain ⟨hi, his⟩ := List.forall_mem_cons.1 hreport
    exact ⟨h.1.trans hi, ih h.2 his⟩

theorem exists_settles (hnodup : is.Nodup) (st : Logged Arena) (ticks m : Int) :
    ∃ report b, Settles ticks m report b is st := by
  induction is generalizing st with
  | nil => exact ⟨fun _ => .error default, st.state, rfl⟩
  | cons i is ih =>
    obtain ⟨hi, hnodup⟩ := List.nodup_cons.1 hnodup
    obtain ⟨report, b, h⟩ := ih hnodup ((advance i ticks m).after st)
    refine ⟨Function.update report i ((advance i ticks m).outcome st), b, ?_, h.of_report_eq fun j hj => ?_⟩
    · rw [Function.update_self]
    · rw [Function.update_of_ne fun hji : j = i => hi (hji ▸ hj)]

/-! ## What is answered and left -/

theorem Settles.settle (h : Settles ticks m report b is st) :
    ∃ t, (is.mapM fun i => (advance i ticks m).settle) st = .ok (is.map report) t ∧ t.state = b := by
  induction is generalizing st with
  | nil => exact ⟨st, rfl, h⟩
  | cons i is ih =>
    obtain ⟨t, hrest, hstate⟩ := ih h.2
    refine ⟨t, ?_, hstate⟩
    rw [List.mapM_cons, Action.bind_apply]
    change ((is.mapM fun i => (advance i ticks m).settle) >>= fun rs => pure ((advance i ticks m).outcome st :: rs))
      ((advance i ticks m).after st) = _
    rw [Action.bind_apply, hrest, h.1]
    rfl

/-- If the first fault stops the whole, it is the first one of the reports. -/
theorem Settles.outcome (h : Settles ticks m report b is st) :
    (is.mapM fun i => advance i ticks m).outcome st = is.mapM report := by
  induction is generalizing st with
  | nil => rfl
  | cons i is ih =>
    rw [List.mapM_cons, List.mapM_cons, Action.outcome_bind, h.1]
    refine congrArg (report i >>= ·) (funext fun r => ?_)
    rw [Action.outcome_bind, ih h.2]
    rfl

theorem Settles.after_eq (h : Settles ticks m report b is st) {reports : List StreamTick}
    (hok : (is.mapM fun i => advance i ticks m).outcome st = .ok reports) :
    ((is.mapM fun i => advance i ticks m).after st).state = b := by
  induction is generalizing st reports with
  | nil => exact h
  | cons i is ih =>
    rw [List.mapM_cons, Action.outcome_bind] at hok
    obtain ⟨r, hr, hok⟩ := Result.bind_eq_ok.1 hok
    rw [Action.outcome_bind] at hok
    obtain ⟨rs, hrs, -⟩ := Result.bind_eq_ok.1 hok
    rw [List.mapM_cons, Action.after_bind_of_ok hr, Action.after_bind_of_ok hrs]
    exact ih h.2 hrs

theorem Settles.answers (h : Settles ticks m report b is st) (hready : st.state.Ready)
    (hlt : ∀ i ∈ is, i < st.state.size) : ∀ i ∈ is, AnswersUnlessLong st.least (report i) := by
  induction is generalizing st with
  | nil => exact fun _ hi => absurd hi List.not_mem_nil
  | cons i is ih =>
    obtain ⟨hi, hlt⟩ := List.forall_mem_cons.1 hlt
    have hwp := wp_advance_of_ready hready hi ticks m
    have hkept : Kept [i] st.state ((advance i ticks m).after st).state :=
      (hwp.weaken (fun _ _ ht => ht.2.2) fun _ _ ht => ht.1.2).after
    have hrest := ih h.2 (hready.of_kept hkept) (hkept.size.symm ▸ hlt)
    rw [least_advance] at hrest
    refine List.forall_mem_cons.2 ⟨fun f hf => ?_, hrest⟩
    exact (hwp.of_outcome_error (h.1.trans hf)).2

/-- A call with suppliers first visits the streams in such an order. -/
theorem exists_tick_eq (hacyclic : st.state.Acyclic) (hbound : ∀ i, st.state.SlotsBound i) :
    ∃ order, order.Perm (List.range st.state.size) ∧ st.state.SuppliersFirst order ∧
      tick ticks .suppliersFirst m st = (order.mapM fun i => advance i ticks m) st := by
  obtain ⟨order, hperm, hfirst, horder, -⟩ := visitOrder_of_acyclic hbound hacyclic
  refine ⟨order, hperm, hfirst, ?_⟩
  change ((liftM (st.state.visitOrder .suppliersFirst) : Action Arena (List Nat)) >>= _) st = _
  rw [horder]
  rfl

/-- If no stream supplies two others, it does not matter in which order streams are advanced, as long as
each has its suppliers behind it: they come to the same arena, and each to the same report. A call with
suppliers first is one of these orders. -/
theorem advances_in_any_order {st : Logged Arena}
    (hsingle : ∀ u i j, st.state.Supplies u i → st.state.Supplies u j → i = j) (ticks m : Int) :
    ∃ (report : Nat → Except Fault StreamTick) (b : Arena),
      (∀ order, order.Perm (List.range st.state.size) → st.state.SuppliersFirst order →
        (∃ t, (order.mapM fun i => (advance i ticks m).settle) st = .ok (order.map report) t ∧ t.state = b) ∧
        (order.mapM fun i => advance i ticks m).outcome st = order.mapM report ∧
        (∀ reports t, (order.mapM fun i => advance i ticks m) st = .ok reports t → t.state = b) ∧
        ((∀ s ∈ st.state.streams, ∃ period, s.recipe.period = .ok period ∧ 1 ≤ period) →
          ∀ i ∈ order, AnswersUnlessLong st.least (report i))) ∧
      (st.state.Acyclic → (∀ i, st.state.SlotsBound i) → ∃ order, order.Perm (List.range st.state.size) ∧
        st.state.SuppliersFirst order ∧
        tick ticks .suppliersFirst m st = (order.mapM fun i => advance i ticks m) st) := by
  cases Classical.em (∃ order, order.Perm (List.range st.state.size) ∧ st.state.SuppliersFirst order) with
  | inr hnone =>
    exact ⟨fun _ => .error default, st.state,
      fun order hperm hfirst => absurd ⟨order, hperm, hfirst⟩ hnone, exists_tick_eq⟩
  | inl hsome =>
    obtain ⟨one, hone, hfirst⟩ := hsome
    have hnodup : one.Nodup := hone.nodup_iff.2 List.nodup_range
    obtain ⟨report, b, hsettles⟩ := exists_settles hnodup st ticks m
    refine ⟨report, b, fun order hperm horder => ?_, exists_tick_eq⟩
    have h : Settles ticks m report b order st :=
      hsettles.of_perm hsingle (Raised.refl _) (suppliersFirst_iff.1 hfirst) (suppliersFirst_iff.1 horder)
        (hone.trans hperm.symm) hnodup fun _ _ => List.not_mem_nil
    refine ⟨h.settle, h.outcome, fun reports t ht => ?_, fun hperiods => h.answers ⟨?_, ?_⟩ fun i hi => ?_⟩
    · obtain ⟨hok, rfl⟩ := Action.outcome_eq_ok ht
      exact h.after_eq hok
    · exact horder.slotsBound hperm
    · exact fun i s hs => hperiods s (List.mem_of_getElem? hs)
    · exact List.mem_range.1 (hperm.mem_iff.1 hi)

/-- Two mines that feed one smelter. -/
def twoMines : Arena :=
  ⟨[Stream.fresh (Recipe.every 1 Int.one_pos [] [⟨⟨0, 0⟩, 1⟩]) [] 1 8,
    Stream.fresh (Recipe.every 1 Int.one_pos [] [⟨⟨1, 0⟩, 2⟩]) [] 1 8,
    Stream.fresh (Recipe.every 1 Int.one_pos [⟨⟨0, 0⟩, 1⟩, ⟨⟨1, 0⟩, 1⟩] [⟨⟨2, 0⟩, 1⟩])
      [⟨⟨0, 0⟩, 0⟩, ⟨⟨1, 0⟩, 1⟩] 1 8]⟩

/-- Either mine may be visited first. -/
theorem advances_in_any_order_twoMines :
    ∃ report t₁ t₂,
      ([0, 1, 2].mapM fun i => (advance i 3).settle) { state := twoMines } = .ok ([0, 1, 2].map report) t₁ ∧
      ([1, 0, 2].mapM fun i => (advance i 3).settle) { state := twoMines } = .ok ([1, 0, 2].map report) t₂ ∧
      t₁.state = t₂.state := by
  have hthird {u i : Nat} (h : twoMines.Supplies u i) : i = 2 ∧ u < 2 := by
    have hall : ∀ e ∈ twoMines.streams.zipIdx, ∀ slot ∈ e.1.inputs, e.2 = 2 ∧ slot.supplier < 2 := by decide
    obtain ⟨s, hs, slot, hslot, rfl⟩ := h
    exact hall (s, i) (List.mem_zipIdx_iff_getElem?.2 hs) slot hslot
  obtain ⟨report, b, horders, -⟩ := @advances_in_any_order { state := twoMines }
    (fun u i j hi hj => (hthird hi).1.trans (hthird hj).1.symm) 3 defaultBufferMultiplier
  have hfirst (is : List Nat) (his : is = [0, 1, 2] ∨ is = [1, 0, 2]) : twoMines.SuppliersFirst is := by
    have hleaf {i : Nat} (hi : i ≠ 2) (done : List Nat) (u : Nat) (hu : twoMines.Supplies u i) : u ∈ done :=
      absurd (hthird hu).1 hi
    have hlast (done : List Nat) (hdone : ∀ u, u < 2 → u ∈ done) (u : Nat) (hu : twoMines.Supplies u 2) : u ∈ done :=
      hdone u (hthird hu).2
    rw [suppliersFirst_iff]
    rcases his with rfl | rfl
    · exact ⟨hleaf (by decide) _, hleaf (by decide) _, hlast _ (by decide), trivial⟩
    · exact ⟨hleaf (by decide) _, hleaf (by decide) _, hlast _ (by decide), trivial⟩
  obtain ⟨t₁, h₁, hstate₁⟩ := (horders [0, 1, 2] (List.Perm.refl _) (hfirst _ (.inl rfl))).1
  obtain ⟨t₂, h₂, hstate₂⟩ := (horders [1, 0, 2] (List.Perm.swap 0 1 [2]) (hfirst _ (.inr rfl))).1
  exact ⟨report, t₁, t₂, h₁, h₂, hstate₁.trans hstate₂.symm⟩

end Arena

end Conveyor
