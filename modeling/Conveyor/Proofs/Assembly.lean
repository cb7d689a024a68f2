-- SUMMARY: Where streams are only ever added, suppliers first is the order of registration, and no tick finds a circle.
import Conveyor.Proofs.Factory.WellFormed
import Conveyor.Proofs.Order

/-!
# Arenas put together by adding

A stream that is added is bound to streams that are there already. While nothing is bound anew, every
stream is therefore registered after all that it can lead to, and a search that starts from the streams
by their numbers finds each of them on its own, in its turn. Three orders are then two: suppliers first is
the order of registration, and takers first is the same order from its end.
-/

namespace Conveyor.Arena

/-- Streams have been added one by one, and none has been bound anew. In between they may have run,
exchanged stock and been raised. -/
inductive Assembled : Arena → Prop
  | empty : Assembled {}
  | add {a b : Arena} {recipe : Recipe} {bindings : List (Product × Int)} {mult m : Int} {index : Nat} :
      Assembled a → a.add recipe bindings mult m = .ok (index, b) → Assembled b
  | raised {a b : Arena} : Assembled a → a.Raised b → Assembled b

namespace Assembled

variable {a : Arena} {α : Type}

/-- An added stream is bound to streams that are there already. -/
theorem bindsEarlier (h : a.Assembled) : a.BindsEarlier := by
  induction h with
  | empty => exact fun _ he => absurd he List.not_mem_nil
  | @add a b recipe bindings mult m index _ hadd ih =>
    obtain ⟨slots, hslots, -, -, -, rfl⟩ := add_eq_ok hadd
    refine bindsEarlier_iff.2 fun i s hs slot hslot => ?_
    rcases stream?_append.1 hs with hs | ⟨rfl, rfl⟩
    · exact bindsEarlier_iff.1 ih i s hs slot hslot
    · obtain ⟨binding, -, hbound⟩ := Result.exists_of_mem_mapM hslots hslot
      exact (slot_eq_ok hbound).2
  | raised _ hraised ih => exact hraised.bindsEarlier ih

/-- What does no more than raise the arena it starts from binds nothing anew. -/
theorem keeps_of_raised {act : Action Arena α} (h : ∀ a, Action.Keeps (Raised a) act) :
    Action.Keeps Assembled act := by
  refine Action.Triple.fix fun a ha => ?_
  refine (h a).weaken ?_ ?_ ?_
  · rintro b rfl
    exact Raised.refl b
  · exact fun _ _ hraised => ha.raised hraised
  · exact fun _ _ hraised => ha.raised hraised

/-- Passing time binds nothing anew. -/
theorem keeps_tick (ticks : Int) (order : TickOrder) (m : Int) :
    Action.Keeps Assembled (tick ticks order m) :=
  keeps_of_raised fun a => (raised_closedUnderTime a m).keeps_tick ticks order

/-- Nor does balancing. -/
theorem keeps_solve (i : Nat) (ε : Float) : Action.Keeps Assembled (solve i ε) :=
  keeps_of_raised fun a => (raised_closedUnderRaise a).keeps_solve i ε

end Assembled

/-! ## Orders of visits -/

variable {st : Logged Arena} {cs : List (List Nat)}

/-- Takers first is suppliers first from its end. -/
theorem visitOrder_consumersFirst (a : Arena) :
    a.visitOrder .consumersFirst = (a.visitOrder .suppliersFirst).map List.reverse := by
  unfold visitOrder
  dsimp only
  cases a.checkAcyclic a.supplyGraph.postorder <;> rfl

/-- Of the order of visits only the outcome counts. -/
theorem tick_congr {order order' : TickOrder} (h : st.state.visitOrder order = st.state.visitOrder order')
    (ticks m : Int) : tick ticks order m st = tick ticks order' m st := by
  change ((liftM (st.state.visitOrder order) : Action Arena (List Nat)) >>= _) st =
    ((liftM (st.state.visitOrder order') : Action Arena (List Nat)) >>= _) st
  rw [h]

/-- Whoever starts a search from the streams by their numbers comes to the order of registration. -/
theorem orderFrom_of_bindsEarlier {a : Arena} (ha : a.BindsEarlier) (h : a.supplyGraph.Components cs)
    (hturn : a.supplyGraph.FoundInTurn cs) : a.orderFrom cs = .ok (List.range a.size) := by
  have hflat : cs.flatten = List.range a.size := by
    rw [h.eq_map_range hturn fun _ _ => ha.lt_of_next, ← List.flatMap_def, List.flatMap_singleton']
    rfl
  rw [(orderFrom_of_acyclic ha.slotsBound h ha.acyclic).1, hflat]

/-- On an arena put together by adding, suppliers first is the order of registration, and takers first is
this order from its end, whoever makes the order, as long as the search starts from the streams by their
numbers. So a call with suppliers first is one in the order of registration, and no call is refused
because streams supply each other. -/
theorem visits_in_turn {st : Logged Arena} (h : st.state.Assembled) (ticks m : Int) :
    st.state.visitOrder .suppliersFirst = .ok (List.range st.state.size) ∧
    st.state.visitOrder .registration = .ok (List.range st.state.size) ∧
    st.state.visitOrder .consumersFirst = .ok (List.range st.state.size).reverse ∧
    (∀ cs, st.state.supplyGraph.Components cs → st.state.supplyGraph.FoundInTurn cs →
      st.state.orderFrom cs = .ok (List.range st.state.size)) ∧
    tick ticks .suppliersFirst m st = tick ticks .registration m st ∧
    ∀ order f t, tick ticks order m st = .error f t → f.kind? ≠ some .cycle := by
  have hearlier := h.bindsEarlier
  -- The search of the program is one of those that start from the streams by their numbers.
  have hsearch := Digraph.components_spec (lt_size_of_link hearlier.slotsBound)
  have hrange : st.state.visitOrder .suppliersFirst = .ok (List.range st.state.size) :=
    (visitOrder_eq_orderFrom hearlier.slotsBound).1.trans
      (orderFrom_of_bindsEarlier hearlier hsearch (Digraph.components_foundInTurn _))
  refine ⟨hrange, rfl, ?_, fun cs => orderFrom_of_bindsEarlier hearlier, tick_congr hrange ticks m,
    fun order f t hf => ?_⟩
  · rw [visitOrder_consumersFirst, hrange]
    rfl
  have hunrefused := tick_unrefused ticks order m st hearlier
  rw [hf] at hunrefused
  exact fun hcycle => Option.some_ne_none _ (hcycle.symm.trans hunrefused)

/-- A mine, a smelter that takes ore from it, and a press that takes iron from the smelter and ore from
the mine, each added with the bindings of its slots. -/
def pressing : Arena :=
  ⟨[Stream.fresh (Recipe.every 1 Int.one_pos [] [⟨⟨0, 0⟩, 4⟩]) [] 1 8,
    Stream.fresh (Recipe.every 1 Int.one_pos [⟨⟨0, 0⟩, 1⟩] [⟨⟨1, 0⟩, 1⟩]) [⟨⟨0, 0⟩, 0⟩] 1 8,
    Stream.fresh (Recipe.every 2 (Int.succ_ofNat_pos 1) [⟨⟨1, 0⟩, 1⟩, ⟨⟨0, 0⟩, 1⟩] [⟨⟨2, 0⟩, 1⟩])
      [⟨⟨1, 0⟩, 1⟩, ⟨⟨0, 0⟩, 0⟩] 1 8]⟩

theorem pressing_assembled : pressing.Assembled := by
  have hmine : Assembled ⟨pressing.streams.take 1⟩ := .add .empty <|
    show Arena.add {} (Recipe.every 1 Int.one_pos [] [⟨⟨0, 0⟩, 4⟩]) [] = .ok (0, _) from rfl
  have hsmelter : Assembled ⟨pressing.streams.take 2⟩ := .add hmine <|
    show Arena.add _ (Recipe.every 1 Int.one_pos [⟨⟨0, 0⟩, 1⟩] [⟨⟨1, 0⟩, 1⟩]) [(⟨0, 0⟩, 0)] = .ok (1, _) from rfl
  exact .add hsmelter <|
    show Arena.add _ (Recipe.every 2 (Int.succ_ofNat_pos 1) [⟨⟨1, 0⟩, 1⟩, ⟨⟨0, 0⟩, 1⟩] [⟨⟨2, 0⟩, 1⟩])
      [(⟨1, 0⟩, 1), (⟨0, 0⟩, 0)] = .ok (2, _) from rfl

/-- In five ticks the mine, the smelter and the press run in this order, with suppliers first as in the
order of registration; with takers first they run from the end. -/
theorem visits_in_turn_pressing :
    pressing.visitOrder .suppliersFirst = .ok [0, 1, 2] ∧ pressing.visitOrder .consumersFirst = .ok [2, 1, 0] ∧
      ∃ reports t, tick 5 .suppliersFirst 8 { state := pressing, least := .info } = .ok reports t ∧
        tick 5 .registration 8 { state := pressing, least := .info } = .ok reports t ∧
        reports.map StreamTick.total = [20, 5, 2] := by
  obtain ⟨hfirst, -, hlast, -, htick, -⟩ :=
    @visits_in_turn { state := pressing, least := .info } pressing_assembled 5 8
  obtain ⟨reports, t, hrun, htotals⟩ :=
    show ∃ reports t, tick 5 .registration 8 { state := pressing, least := .info } = .ok reports t ∧
      reports.map StreamTick.total = [20, 5, 2] from Action.wp.exists_ok (by decide +kernel)
  exact ⟨hfirst, hlast, reports, t, htick.trans hrun, hrun, htotals⟩

end Conveyor.Arena
