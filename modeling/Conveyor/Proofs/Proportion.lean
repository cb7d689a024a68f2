-- SUMMARY: Capacities are so many cycles of all copies, exactly: scaling rounds nothing away.
import Conveyor.Proofs.Recipe
import Conveyor.Proofs.Scaling
import Conveyor.Proofs.Simulation

/-!
# Capacities in proportion

An output has room for so many cycles of what all copies yield, an input for so many of what all copies
require. Scaling multiplies what is a multiple of the copies already, so that the division that follows
leaves no rest. An input that is opened late gets the capacity that it would have been scaled to by then.
-/

namespace Conveyor

open Table

/-- Units of a product that one copy moves in a cycle, by which its buffer goes: what it yields, or what it
requires where it yields none. -/
def Recipe.bufferedOf (r : Recipe) (p : Product) : Int :=
  if p ∈ r.outputs.map Part.product then r.yieldOf p else r.requiredOf p

/-- Every output has a buffer, and every buffer has room for `m` cycles of all copies. -/
structure Stream.Proportional (m : Int) (s : Stream) : Prop where
  mult_pos : 1 ≤ s.mult
  outputs : ∀ p ∈ s.recipe.outputs.map Part.product, ∃ b, s.buffers.get? p = some b
  max_eq : ∀ p b, s.buffers.get? p = some b → b.max = s.recipe.bufferedOf p * m * s.mult

namespace Stream

variable {m : Int} {s s' t : Stream}

/-! ## Building and opening -/

theorem fresh_proportional {recipe : Recipe} {slots : List Slot} {mult : Int} (hmult : 1 ≤ mult) :
    (fresh recipe slots mult m).Proportional m where
  mult_pos := hmult
  outputs p hp := ⟨_, (get?_fresh recipe slots mult m p).trans (if_pos hp)⟩
  max_eq p b hb := by
    rw [get?_fresh] at hb
    split at hb
    next hp =>
      obtain rfl := Option.some.inj hb
      exact congrArg (· * m * mult) (if_pos hp).symm
    next => cases hb

/-- Only a product that is no output can still be without a buffer, and as an input it gets one for what is
required. -/
theorem Proportional.openInput (hs : s.Proportional m) (p : Product) : (s.openInput p m).Proportional m where
  mult_pos := by rw [openInput_mult]; exact hs.mult_pos
  outputs q hq := by
    rw [openInput_recipe] at hq
    rw [get?_openInput]
    split
    · exact ⟨_, rfl⟩
    · exact hs.outputs q hq
  max_eq q b hb := by
    rw [openInput_recipe, openInput_mult]
    rw [get?_openInput] at hb
    split at hb
    · subst q
      obtain rfl := Option.some.inj hb
      unfold inputBuffer
      cases hp : s.buffers.get? p with
      | some b => exact hs.max_eq p b hp
      | none =>
        have hinput : p ∉ s.recipe.outputs.map Part.product := by
          intro houtput
          obtain ⟨b, hb⟩ := hs.outputs p houtput
          cases hp.symm.trans hb
        exact congrArg (· * m * s.mult) (if_neg hinput).symm
    · exact hs.max_eq q b hb

/-! ## Stock and countdowns -/

/-- Of the same recipe and copies, with capacities as they were, whatever is in stock. -/
theorem Proportional.of_max_eq (hs : s.Proportional m) (hrecipe : t.recipe = s.recipe) (hmult : t.mult = s.mult)
    (hmax : ∀ p, (t.buffers.get? p).map Buffer.max = (s.buffers.get? p).map Buffer.max) : t.Proportional m where
  mult_pos := hmult ▸ hs.mult_pos
  outputs p hp := by
    obtain ⟨b, hb⟩ := hs.outputs p (hrecipe ▸ hp)
    have hmap := hmax p
    rw [hb] at hmap
    obtain ⟨c, hc, _⟩ := Option.map_eq_some_iff.1 hmap
    exact ⟨c, hc⟩
  max_eq p c hc := by
    have hmap := hmax p
    rw [hc] at hmap
    obtain ⟨b, hb, hmax⟩ := Option.map_eq_some_iff.1 hmap.symm
    rw [← hmax, hrecipe, hmult]
    exact hs.max_eq p b hb

theorem Proportional.gain (hs : s.Proportional m) (p : Product) (n : Int) : (s.gain p n).Proportional m := by
  refine hs.of_max_eq rfl rfl fun q => ?_
  rw [get?_gain]
  split
  · rw [Option.map_map]
    rfl
  · rfl

theorem Proportional.produce? (hs : s.Proportional m) (h : s.produce? = some s') : s'.Proportional m := by
  refine hs.of_max_eq ?_ ?_ fun q => ?_
  · rw [eq_of_produce? h]
  · rw [eq_of_produce? h]
  · rw [get?_of_produce? h, Option.map_map]
    rfl

/-! ## Scaling -/

/-- What is scaled is a multiple of the copies, so the division is exact. -/
theorem Proportional.scale (hs : s.Proportional m) {n : Int} (hn : 1 ≤ n) (h : s.scale n = .ok t) :
    t.Proportional m where
  mult_pos := by rw [scale_eq_ok h]; exact hn
  outputs p hp := by
    rw [scale_eq_ok h] at hp
    obtain ⟨b, hb⟩ := hs.outputs p hp
    rw [get?_scale h, hb]
    exact ⟨_, rfl⟩
  max_eq p c hc := by
    rw [get?_scale h] at hc
    obtain ⟨b, hb, rfl⟩ := Option.map_eq_some_iff.1 hc
    have hmult : s.mult ≠ 0 := by have := hs.mult_pos; omega
    rw [scale_eq_ok h]
    change (b.max * n).fdiv s.mult = s.recipe.bufferedOf p * m * n
    rw [hs.max_eq p b hb, Int.mul_right_comm, Int.mul_fdiv_cancel _ hmult]

/-- Which products have buffers, and of what capacity. -/
theorem Proportional.map_max (hs : s.Proportional m) (p : Product) : (s.buffers.get? p).map Buffer.max =
    if p ∈ s.buffers.keys then some (s.recipe.bufferedOf p * m * s.mult) else none := by
  cases hb : s.buffers.get? p with
  | some b =>
    rw [if_pos (mem_keys_iff.2 ⟨b, hb⟩), Option.map_some, hs.max_eq p b hb]
  | none =>
    have hkey : p ∉ s.buffers.keys := by simp [mem_keys_iff, hb]
    rw [if_neg hkey, Option.map_none]

/-- A sequence of multipliers leaves the recipe and the buffers' products, and capacities in proportion. -/
theorem Proportional.exists_scaleThrough (hs : s.Proportional m) {mults : List Int} (hmults : ∀ n ∈ mults, 1 ≤ n) :
    ∃ t, s.scaleThrough mults = .ok t ∧ t.mult = mults.getLastD s.mult ∧
      t.Proportional m ∧ t.recipe = s.recipe ∧ t.buffers.keys = s.buffers.keys := by
  refine Stream.exists_scaleThrough (fun t u n ht hmult hn h => ?_) ⟨hs, rfl, rfl⟩ hs.mult_pos hmults
  obtain ⟨hproportional, hrecipe, hkeys⟩ := ht
  refine ⟨hproportional.scale hn h, ?_, (sameCycles_of_scale hmult hn h).keys.trans hkeys⟩
  rw [scale_eq_ok h, ← hrecipe]

/-- The capacities after a sequence of multipliers are in proportion to those before, without a rest, and
opening an input before it or after it comes to the same capacities. -/
theorem Proportional.scaleThrough_exact (hs : s.Proportional m) {mults : List Int} (hmults : ∀ n ∈ mults, 1 ≤ n) :
    ∃ t, s.scaleThrough mults = .ok t ∧ t.mult = mults.getLastD s.mult ∧
      (∀ p b, s.buffers.get? p = some b → ∃ c, t.buffers.get? p = some c ∧ c.max * s.mult = b.max * t.mult) ∧
      ∀ p, ∃ u, (s.openInput p m).scaleThrough mults = .ok u ∧
        ∀ q, (u.buffers.get? q).map Buffer.max = ((t.openInput p m).buffers.get? q).map Buffer.max := by
  obtain ⟨t, ht, hlast, hproportional, hrecipe, hkeys⟩ := hs.exists_scaleThrough hmults
  refine ⟨t, ht, hlast, fun p b hb => ?_, fun p => ?_⟩
  · obtain ⟨c, hc⟩ := mem_keys_iff.1 (hkeys ▸ mem_keys_iff.2 ⟨b, hb⟩ : p ∈ t.buffers.keys)
    refine ⟨c, hc, ?_⟩
    rw [hproportional.max_eq p c hc, hs.max_eq p b hb, hrecipe]
    exact Int.mul_right_comm _ _ _
  · obtain ⟨u, hu, hlast', hproportional', hrecipe', hkeys'⟩ := (hs.openInput p).exists_scaleThrough hmults
    refine ⟨u, hu, fun q => ?_⟩
    have hmult : u.mult = (t.openInput p m).mult := by rw [hlast', openInput_mult, openInput_mult, hlast]
    have hrecipes : u.recipe = (t.openInput p m).recipe := by rw [hrecipe', openInput_recipe, openInput_recipe, hrecipe]
    have hkey : q ∈ u.buffers.keys ↔ q ∈ (t.openInput p m).buffers.keys := by
      rw [hkeys', mem_keys_openInput, mem_keys_openInput, hkeys]
    rw [hproportional'.map_max, (hproportional.openInput p).map_max, hmult, hrecipes]
    simp only [hkey]

end Stream

/-! ## Arenas -/

namespace Arena

/-- All streams have capacities in proportion. -/
def Proportional (m : Int) (a : Arena) : Prop := ∀ i s, a.stream? i = some s → s.Proportional m

variable {m : Int}

theorem proportional_closedUnderTime (m : Int) : ClosedUnderTime m (Proportional m) :=
  forall_stream_closedUnderTime (fun _ hs => hs.openInput) (fun _ hs => hs.gain) (fun _ _ hs => hs.produce?)
    fun _ hs _ => ⟨hs.mult_pos, hs.outputs, hs.max_eq⟩

theorem proportional_closedUnderRaise (m : Int) :
    Balancing.ClosedUnderRaise (fun _ => True) (fun _ => True) fun b => b.arena.Proportional m where
  visits _ _ := trivial
  suppliers _ _ _ _ _ _ := trivial
  raise _ hb u s _ _ _ hs hmult hn hscale :=
    forall_stream_modify hb fun _ _ => (hb u s hs).scale (by omega) hscale

end Arena

end Conveyor
