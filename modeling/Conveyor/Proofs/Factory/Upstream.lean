-- SUMMARY: The efficiencies of a factory change by nothing but balancing, and then only downstream of what is raised.
import Conveyor.Proofs.Efficiency.Upstream
import Conveyor.Proofs.Factory.Carries
import Conveyor.Proofs.Factory.Sustained

/-!
# What changes an efficiency

Of all that can be asked of a factory only balancing touches what a query sees of a stream that is there.
Registration adds streams that no earlier one is bound to; time and capacities are a matter of stock.
-/

namespace Conveyor.Factory

open Arena

/-- Calls that do not balance leave what queries see of the streams that are there. -/
theorem answersAlike_run {s : Logged Factory} (hbound : ∀ i, s.state.arena.SlotsBound i) {calls : List Call}
    (hcalls : ∀ call ∈ calls, call.balances = false) {i : Nat} (hi : i < s.state.arena.size) :
    s.state.arena.AnswersAlike (run calls s).state.arena i := by
  have hkeeps (call : Call) (hcall : call ∈ calls) :
      Action.Keeps (Carrying Stream.Alike s.state.arena) call.act :=
    keeps_carrying_act Stream.alike_lasting (fun _ _ _ => ⟨rfl, rfl, rfl⟩) fun hbalances => by
      rw [hcalls call hcall] at hbalances
      cases hbalances
  have hcarries : s.state.arena.Carries Stream.Alike (run calls s).state.arena :=
    run_keeps_of_forall (P := Carrying Stream.Alike s.state.arena) hkeeps (.refl Stream.alike_lasting _)
  exact hcarries.answersAlike hbound hi

/-- The efficiency of a stream, its rates and what it is supplied with depend on nothing but the recipes,
the bindings and the multipliers of the stream and of those upstream of it: on two arenas that have the same
there, cycles or not, queries answer alike or fail alike. So passing time does not change them, whatever
the arena; no call of a factory but balancing changes those of a stream that is there, answered or not; and
balancing changes them only downstream of the streams that it says it has raised. -/
theorem answers_depend_on_upstream :
    (∀ (a b : Arena) i, a.AlikeUpTo b i → a.AnswersAlike b i) ∧
    (∀ (st : Logged Arena) ticks order m i,
      st.state.AnswersAlike ((Arena.tick ticks order m).after st).state i) ∧
    (∀ s : Logged Factory, (∀ i, s.state.arena.SlotsBound i) →
      ∀ calls : List Call, (∀ call ∈ calls, call.balances = false) →
        ∀ i < s.state.arena.size, s.state.arena.AnswersAlike (run calls s).state.arena i) ∧
    ∀ (st t : Logged Arena) target ε changes, Arena.solve target ε st = .ok changes t →
      ∀ i, (∀ c ∈ changes, ¬ Relation.ReflTransGen st.state.Supplies c.stream i) →
        st.state.AnswersAlike t.state i :=
  ⟨fun _ _ _ h => h.answersAlike, fun st ticks order m i => answersAlike_tick ticks order m st i,
    fun _ hbound _ hcalls _ hi => answersAlike_run hbound hcalls hi,
    fun _ _ _ _ _ h _ hi => answersAlike_solve h hi⟩

/-- Two mines with a smelter each: the mine of the first line is slow, that of the second gives half of
what its smelter needs. -/
def twoLines (rest : Nat) : Arena :=
  ⟨(mining rest 1).streams ++
    [Stream.fresh (Recipe.every 1 Int.one_pos [] [⟨⟨0, 0⟩, 1⟩]) [] 1 8,
      Stream.fresh (Recipe.every 1 Int.one_pos [⟨⟨0, 0⟩, 2⟩] [⟨⟨1, 0⟩, 1⟩]) [⟨⟨0, 0⟩, 2⟩] 1 8]⟩

/-- Nothing of the first line is upstream of the second. -/
theorem two_le_of_reaches_twoLines {rest j : Nat} (h : Relation.ReflTransGen (twoLines rest).Supplies j 3) :
    2 ≤ j ∧ j ≤ 3 := by
  induction h using Relation.ReflTransGen.head_induction_on with
  | refl => decide
  | @head _ i hsupplies _ ih =>
    obtain ⟨s, hs, slot, hslot, rfl⟩ := hsupplies
    obtain rfl | rfl : i = 2 ∨ i = 3 := by omega
    · obtain rfl := Option.some.inj hs
      cases hslot
    · obtain rfl := Option.some.inj hs
      obtain rfl := List.mem_singleton.1 hslot
      decide

/-- The second line does not see how slow the mine of the first one is, nor that balancing raises it; and
a smelter does not see what is built behind it. -/
theorem answers_depend_on_upstream_twoLines :
    (twoLines 3).AnswersAlike (twoLines 5) 3 ∧
    (built (smeltery 3 4)).state.arena.AnswersAlike
      (run (thief ++ [.tick (.int 5), .setBuffer "smelter" "ore" (.int 2)]) (built (smeltery 3 4))).state.arena 1 ∧
    ∃ t, Arena.solve 1 defaultEpsilon { state := twoLines 3 } = .ok [⟨0, 1, 4⟩] t ∧
      (twoLines 3).AnswersAlike t.state 3 := by
  obtain ⟨hcongr, -, hcalls, hsolve⟩ := answers_depend_on_upstream
  refine ⟨hcongr _ _ 3 fun j hj => ?_, ?_, ?_⟩
  · obtain rfl | rfl : j = 2 ∨ j = 3 := by have := two_le_of_reaches_twoLines hj; omega
    · exact .some (Stream.alike_lasting.refl _)
    · exact .some (Stream.alike_lasting.refl _)
  · have hwf := wellFormed_run (s := { state := empty {}, least := .info }) (wellFormed_empty {}) (smeltery 3 4)
    exact hcalls _ hwf.arena.bindsEarlier.slotsBound _ (by decide) 1 (by decide +kernel)
  · have hrun : ∃ changes t, Arena.solve 1 defaultEpsilon { state := twoLines 3 } = .ok changes t ∧
        changes = [⟨0, 1, 4⟩] := Action.wp.exists_ok (by decide +kernel)
    obtain ⟨changes, t, ht, rfl⟩ := hrun
    refine ⟨t, ht, hsolve _ _ _ _ _ ht 3 fun c hc hreaches => ?_⟩
    obtain rfl := List.mem_singleton.1 hc
    exact absurd (two_le_of_reaches_twoLines hreaches).1 (by decide)

end Conveyor.Factory
