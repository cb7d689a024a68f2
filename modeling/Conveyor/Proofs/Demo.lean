-- SUMMARY: The demo factory: it is well formed, and wherever balancing takes it, it can be balanced, reported and drawn.
import Conveyor.Demo
import Conveyor.Factory.Diagram
import Conveyor.Proofs.Efficiency.Bare
import Conveyor.Proofs.Factory.Refusals
import Conveyor.Proofs.Legible

/-!
# The demo factory

Balancing any of its named streams, in any order and as often as it may be, takes the demo factory to one of
three stages. Each of them is found by running it bare; capacities, stock and countdowns do not matter for
where it goes next.
-/

namespace Conveyor

instance : DecidableEq Config := fun c d =>
  decidable_of_iff (c.bufferMultiplier = d.bufferMultiplier ∧ c.tickOrder = d.tickOrder ∧ c.epsilon = d.epsilon)
    (by cases c; cases d; simp)

instance : DecidableEq Factory := fun f g =>
  decidable_of_iff (f.config = g.config ∧ f.modules = g.modules ∧ f.productIds = g.productIds ∧ f.arena = g.arena ∧
    f.products = g.products ∧ f.productNames = g.productNames ∧ f.recipes = g.recipes ∧ f.streams = g.streams ∧
    f.labels = g.labels) (by cases f; cases g; simp)

namespace Demo

/-! ## Building -/

open Factory in
/-- Whatever is registered, the factory stays well formed. -/
theorem wellFormed_build {s : Logged Factory} (hs : s.state.WellFormed) : (build.after s).state.WellFormed := by
  let Well (t : Logged Factory) : Prop := t.state.WellFormed
  have hdiscard {α : Type} {act : Action Factory α} {t : Logged Factory} (h : SafeFrom t act) :
      (discard act).wp (fun _ => Well) (fun _ => Well) t :=
    Action.wp.bind (h.weaken (fun _ _ hu => hu) fun _ _ hu => hu.wellFormed)
  suffices h : build.wp (fun _ => Well) (fun _ => Well) s from h.after
  refine Action.wp.bind ((Action.wp.forM (I := Well) (fun name _ t ht => ?_) hs).weaken (fun _ t ht => ?_) fun _ _ ht => ht)
  · exact hdiscard (safe_registerProduct ht _ _)
  refine Action.wp.bind ((Action.wp.forM (I := Well) (fun r _ u hu => ?_) ht).weaken (fun _ u hu => ?_) fun _ _ hu => hu)
  · exact hdiscard (safe_registerRecipe hu _ _ _ _)
  refine Action.wp.forM (I := Well) (fun entry _ v hv => ?_) hu
  exact hdiscard (safe_registerStream hv _ _)

theorem wellFormed_factory (config : Config) : (factory config).state.WellFormed := by
  rw [factory, Action.final_eq_after]
  exact wellFormed_build (Factory.wellFormed_empty config)

/-- The demo factory as it was built. -/
def start : Factory := factory.state

/-- The demo factory with an order of its own, at an arena of its own. -/
def line (order : TickOrder) (arena : Arena) : Factory := { start with config := { tickOrder := order }, arena }

theorem build_done (order : TickOrder) (least : Level) :
    (build.outcome { state := .empty { tickOrder := order }, least }).isOk = true ∧
      (build.after { state := .empty { tickOrder := order }, least }).state = line order start.arena := by
  cases order <;> cases least <;> decide +kernel

theorem wellFormed_start : start.WellFormed := wellFormed_factory {}

-- To unfold it is to build it.
attribute [irreducible] start

/-! ## Stages -/

/-- The bare arenas that balancing can lead to: as many copies as each stream has. -/
def stages : List Arena :=
  [[1, 1, 1, 1, 1, 1], [1, 1, 2, 4, 1, 1], [1, 2, 2, 4, 1, 1]].map fun mults =>
    ⟨start.arena.bare.streams.zipWith (fun s mult => { s with mult }) mults⟩

theorem bare_start : start.arena.bare ∈ stages := by decide +kernel

/-- The most digits of a capacity that leave room for so many copies of it. -/
def capacityDigits : Nat := 4000

/-- More than any capacity of so many digits. -/
def capacityBound : Nat := Nat.pow 10 capacityDigits

/-- Balancing leads on from here to a stage, and all that is here can be reported and drawn. -/
@[mk_iff]
structure Sound (stage : Arena) : Prop where
  solve : ∀ i ∈ start.streams.values, ∀ least ∈ [Level.debug, .info],
    (Arena.solve i defaultEpsilon).wp (fun changes t => t.state ∈ stages ∧ ∀ c ∈ changes, c.stream < start.labels.length)
      (fun _ _ => False) { state := stage, least }
  report : ∀ name ∈ start.streams.keys, (({ start with arena := stage }).report name >>= StreamReport.lines).isOk = true
  diagram : ({ start with arena := stage }).diagram.isOk = true
  stock : IsWritable (capacityBound * stage.totalCopies)
  buffers : ∀ s ∈ stage.streams, s.buffers.keys = s.recipe.outputTotals.keys
  /-- What a stream makes has a name and is made of other products. -/
  outputs : ∀ s ∈ stage.streams, ∀ p ∈ s.recipe.outputTotals.keys,
    (start.productNames.get? p).isSome = true ∧ IsWritable p.id ∧ s.recipe.requiredOf p = 0

instance : DecidablePred Sound := fun stage => decidable_of_iff _ (sound_iff stage).symm

theorem sound_of_mem : ∀ stage ∈ stages, Sound stage := by decide +kernel

theorem capped_start : start.arena.Capped defaultBufferMultiplier capacityBound :=
  Arena.capped_of_forall_mem (by decide +kernel)

end Demo

end Conveyor
