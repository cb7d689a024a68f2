-- SUMMARY: Whatever calls are made to a factory, its buffers never hold less than nothing or more than their capacity.
import Conveyor.Proofs.Bounds
import Conveyor.Proofs.Factory.Calls
import Conveyor.Proofs.Factory.Registration

/-!
# Bounded buffers of a factory

A factory is sound if its arena is, if its recipes have positive amounts only, and if it does not
build buffers of negative capacity. The last is up to whoever configures it; the second is what
registration checks.
-/

namespace Conveyor.Factory

/-- Sound streams, positive recipes, and no negative capacities to come. -/
structure Sound (f : Factory) : Prop where
  arena : f.arena.Sound
  recipes : ∀ name recipe, f.recipes.get? name = some recipe → recipe.Positive
  bufferMultiplier_nonneg : 0 ≤ f.config.bufferMultiplier

theorem sound_empty {config : Config} (h : 0 ≤ config.bufferMultiplier) :
    (empty config).Sound where
  arena i s hs := by simp [empty, Arena.stream?] at hs
  recipes name recipe h := by simp [empty] at h
  bufferMultiplier_nonneg := h

/-- Whatever else a change of the factory does, these three are enough. -/
theorem Sound.withArena {f : Factory} (hf : f.Sound) {arena : Arena} (h : arena.Sound) :
    Sound { f with arena } :=
  ⟨h, hf.recipes, hf.bufferMultiplier_nonneg⟩

/-! ## Recipes -/

theorem keeps_sound_registerRecipe (name : String) (inputs outputs period : Value) :
    Action.Keeps Sound (registerRecipe name inputs outputs period) := by
  refine keeps_registerRecipe name inputs outputs period fun f hf recipe hpositive _ => ?_
  refine ⟨hf.arena, ?_, hf.bufferMultiplier_nonneg⟩
  intro other r hr
  rw [Table.get?_insert] at hr
  split at hr
  · exact Option.some.inj hr ▸ hpositive
  · exact hf.recipes other r hr

/-! ## Streams -/

theorem keeps_sound_registerStream (name : String) (definition : Value) :
    Action.Keeps Sound (registerStream name definition) := by
  apply keeps_registerStream
  · intro f hf recipeName recipe hrecipe slots mult label _ hmult
    refine ⟨hf.arena.append ?_, hf.recipes, hf.bufferMultiplier_nonneg⟩
    exact Stream.fresh_sound (hf.recipes recipeName recipe hrecipe) hmult hf.bufferMultiplier_nonneg
  · exact fun _ f _ hf => ⟨hf.arena.truncate _, hf.recipes, hf.bufferMultiplier_nonneg⟩
  · exact fun f hf index => ⟨hf.arena, hf.recipes, hf.bufferMultiplier_nonneg⟩

/-! ## Driving -/

theorem keeps_sound_setBuffer (stream product : String) (capacity : Value) :
    Action.Keeps Sound (setBuffer stream product capacity) := by
  refine keeps_setBuffer stream product capacity fun f hf i s hs p b hb capacity hcapacity => ?_
  have hbuffer := ((hf.arena i s hs).inBounds p b hb).resize hcapacity
  refine hf.withArena (hf.arena.modify fun t ht => ?_)
  obtain rfl := Option.some.inj (hs.symm.trans ht)
  exact (hf.arena i s hs).insert hbuffer

theorem keeps_sound_solve (stream : String) : Action.Keeps Sound (solve stream) :=
  keeps_solve stream (fun _ hf => hf.arena) (fun _ _ i ε => Arena.keeps_sound_solve i ε) fun _ hf _ ha =>
    hf.withArena ha

theorem keeps_sound_tick (ticks : Value) : Action.Keeps Sound (tick ticks) :=
  keeps_tick ticks (fun _ hf => hf.arena) (fun _ hf n => Arena.keeps_sound_tick hf.bufferMultiplier_nonneg n _)
    fun _ hf _ ha => hf.withArena ha

/-! ## Runs -/

theorem sound_closedUnderCalls : ClosedUnderCalls Sound where
  registerProduct name module := keeps_registerProduct name module fun _ hf _ _ _ _ =>
    ⟨hf.arena, hf.recipes, hf.bufferMultiplier_nonneg⟩
  registerRecipe := keeps_sound_registerRecipe
  registerStream := keeps_sound_registerStream
  setBuffer := keeps_sound_setBuffer
  solve := keeps_sound_solve
  tick := keeps_sound_tick
  setOrder _ hf _ := ⟨hf.arena, hf.recipes, hf.bufferMultiplier_nonneg⟩

theorem keeps_sound_act (call : Call) : Action.Keeps Sound call.act :=
  sound_closedUnderCalls.keeps_act call

/-- After any run of calls to a new factory every buffer holds between nothing and its capacity. -/
theorem run_buffers_inBounds (config : Config) (hconfig : 0 ≤ config.bufferMultiplier)
    (least : Level) (calls : List Call) :
    ∀ s ∈ (run calls { state := empty config, least }).state.arena.streams,
      ∀ b ∈ s.buffers.values, 0 ≤ b.current ∧ b.current ≤ b.max := by
  intro s hs b hb
  have hsound : (run calls { state := empty config, least }).state.Sound :=
    run_keeps keeps_sound_act calls (sound_empty hconfig)
  obtain ⟨i, hi⟩ := List.mem_iff_getElem?.1 hs
  obtain ⟨p, hp⟩ := Table.mem_values_iff.1 hb
  have hbounds := (hsound.arena i s hi).inBounds p b hp
  exact ⟨hbounds.current_nonneg, hbounds.current_le⟩

/-- Yeast that feeds on itself, in buffers for two cycles. -/
theorem run_buffers_inBounds_yeast :
    0 ≤ (2 : Int) ∧
      ∀ s ∈ (run
          [.registerProduct "yeast" "factory",
            .registerRecipe "culture" (.list []) (.list [.text "yeast"]) (.int 1),
            .registerRecipe "brew" (.list [.text "yeast", .text "yeast"])
              (.list [.part (.text "yeast") (.int 3)]) (.int 2),
            .registerStream "seed" (.call (.text "culture") [] (.int 1)),
            .registerStream "vat" (.call (.text "brew")
              [.stream (.text "seed"), .stream (.text "seed")] (.int 1)),
            .tick (.int 5), .solve "vat", .setBuffer "vat" "yeast" (.int 1), .tick (.int 5)]
          { state := empty { bufferMultiplier := 2 }, least := .debug }).state.arena.streams,
        ∀ b ∈ s.buffers.values, 0 ≤ b.current ∧ b.current ≤ b.max :=
  ⟨by decide, run_buffers_inBounds { bufferMultiplier := 2 } (by decide) .debug _⟩

end Conveyor.Factory
