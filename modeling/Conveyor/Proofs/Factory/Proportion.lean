-- SUMMARY: In a factory whose capacities are never set by hand, every buffer has room for its cycles exactly.
import Conveyor.Proofs.Factory.Calls
import Conveyor.Proofs.Proportion

/-!
# Capacities of a factory

A factory sizes its buffers when streams are registered and when inputs are first drawn, balancing scales
them, and nothing else changes them, setting one by hand apart. So without that the capacities are what the
copies of the moment ask for, in whatever order streams were registered, raised and run.
-/

namespace Conveyor.Factory

variable {m : Int}

/-- The factory sizes buffers for `m` cycles, and has sized them so. -/
structure Proportional (m : Int) (f : Factory) : Prop where
  bufferMultiplier : f.config.bufferMultiplier = m
  arena : f.arena.Proportional m

theorem keeps_proportional_registerStream (name : String) (definition : Value) :
    Action.Keeps (Proportional m) (registerStream name definition) := by
  refine keeps_registerStream name definition ?_ ?_ ?_
  · intro f hf recipeName recipe _ slots mult label _ hmult
    refine ⟨hf.bufferMultiplier, fun i s hs => ?_⟩
    rcases Arena.stream?_append.1 hs with hs | ⟨_, rfl⟩
    · exact hf.arena i s hs
    · exact hf.bufferMultiplier ▸ Stream.fresh_proportional hmult
  · exact fun _ g _ hg => ⟨hg.bufferMultiplier, fun i s hs => hg.arena i s (Arena.stream?_of_truncate hs).2⟩
  · exact fun _ hf _ => ⟨hf.bufferMultiplier, hf.arena⟩

theorem keeps_proportional_solve (stream : String) : Action.Keeps (Proportional m) (solve stream) :=
  keeps_solve stream (fun _ hf => hf.arena) (fun _ _ i ε => (Arena.proportional_closedUnderRaise m).keeps_solve i ε)
    fun _ hf _ ha => ⟨hf.bufferMultiplier, ha⟩

theorem keeps_proportional_tick (ticks : Value) : Action.Keeps (Proportional m) (tick ticks) :=
  keeps_tick ticks (fun _ hf => hf.arena)
    (fun _ hf n => hf.bufferMultiplier ▸ (Arena.proportional_closedUnderTime m).keeps_tick n _)
    fun _ hf _ ha => ⟨hf.bufferMultiplier, ha⟩

theorem proportional_closedUnderUse (m : Int) : ClosedUnderUse (Proportional m) where
  registerProduct name module := keeps_registerProduct name module fun _ hf _ _ _ _ => ⟨hf.bufferMultiplier, hf.arena⟩
  registerRecipe name inputs outputs period :=
    keeps_registerRecipe name inputs outputs period fun _ hf _ _ _ => ⟨hf.bufferMultiplier, hf.arena⟩
  registerStream := keeps_proportional_registerStream
  solve := keeps_proportional_solve
  tick := keeps_proportional_tick
  setOrder _ hf _ := ⟨hf.bufferMultiplier, hf.arena⟩

/-- After any run of calls that set no capacity, a buffer has room for as many cycles of all copies as the factory
is configured for: of what they yield of an output, of what they require of any other product. Scaling the stream
on, however often, leaves no rest, and it does not matter whether an input is opened before or after. -/
theorem run_capacities_exact (config : Config) (least : Level) {calls : List Call}
    (hcalls : ∀ call ∈ calls, call.resizes = false) :
    ∀ s ∈ (run calls { state := empty config, least }).state.arena.streams,
      (∀ p b, s.buffers.get? p = some b →
        (p ∈ s.recipe.outputs.map Part.product → b.max = s.recipe.yieldOf p * config.bufferMultiplier * s.mult) ∧
        (p ∉ s.recipe.outputs.map Part.product → b.max = s.recipe.requiredOf p * config.bufferMultiplier * s.mult)) ∧
      ∀ mults : List Int, (∀ n ∈ mults, 1 ≤ n) →
        ∃ t, s.scaleThrough mults = .ok t ∧ t.mult = mults.getLastD s.mult ∧
          (∀ p b, s.buffers.get? p = some b → ∃ c, t.buffers.get? p = some c ∧ c.max * s.mult = b.max * t.mult) ∧
          ∀ p, ∃ u, (s.openInput p config.bufferMultiplier).scaleThrough mults = .ok u ∧
            ∀ q, (u.buffers.get? q).map Buffer.max =
              ((t.openInput p config.bufferMultiplier).buffers.get? q).map Buffer.max := by
  intro s hs
  have hrun : (run calls { state := empty config, least }).state.Proportional config.bufferMultiplier := by
    refine run_keeps_of_forall (fun call hcall => ?_) ⟨rfl, nofun⟩
    refine (proportional_closedUnderUse _).keeps_act fun hresizes => ?_
    cases (hcalls call hcall).symm.trans hresizes
  obtain ⟨i, hi⟩ := List.mem_iff_getElem?.1 hs
  have hproportional := hrun.arena i s hi
  refine ⟨fun p b hb => ?_, fun mults hmults => hproportional.scaleThrough_exact hmults⟩
  have hmax := hproportional.max_eq p b hb
  unfold Recipe.bufferedOf at hmax
  exact ⟨fun houtput => hmax.trans (by rw [if_pos houtput]), fun hinput => hmax.trans (by rw [if_neg hinput])⟩

/-- A smelter is advanced before and after its mine is raised to 5 copies, and itself to 2 by a foundry. Its input
was opened for one copy of 5 ore and 3 cycles, and has room for 30 after. -/
theorem run_capacities_exact_foundry :
    let calls : List Call :=
      [.registerProduct "ore" "factory", .registerProduct "iron" "factory", .registerProduct "steel" "factory",
        .registerRecipe "mining" (.list []) (.list [.text "ore"]) (.int 1),
        .registerRecipe "smelting" (.list [.part (.text "ore") (.int 5)]) (.list [.text "iron"]) (.int 2),
        .registerRecipe "casting" (.list [.text "iron"]) (.list [.text "steel"]) (.int 1),
        .registerStream "mine" (.call (.text "mining") [] (.int 1)),
        .registerStream "smelter" (.call (.text "smelting") [.stream (.text "mine")] (.int 1)),
        .registerStream "foundry" (.call (.text "casting") [.stream (.text "smelter")] (.int 1)),
        .tick (.int 4), .solve "foundry", .tick (.int 4)]
    let after := (run calls { state := empty { bufferMultiplier := 3 }, least := .info }).state
    (∀ call ∈ calls, call.resizes = false) ∧
      after.arena.streams.map (fun s => (s.mult, s.buffers.values.map Buffer.max)) =
        [(5, [15]), (2, [6, 30]), (1, [3, 3])] ∧
      ∀ s ∈ after.arena.streams, ∀ p b, s.buffers.get? p = some b → p ∉ s.recipe.outputs.map Part.product →
        b.max = s.recipe.requiredOf p * 3 * s.mult := by
  intro calls after
  have hcalls : ∀ call ∈ calls, call.resizes = false := by decide
  refine ⟨hcalls, by decide +kernel, fun s hs p b hb hinput => ?_⟩
  exact ((run_capacities_exact { bufferMultiplier := 3 } .info hcalls s hs).1 p b hb).2 hinput

end Conveyor.Factory
