-- SUMMARY: Scaling a stream up and down keeps how many cycles its buffers can hold.
import Conveyor.Proofs.Balancing

/-!
# Scaling

A capacity follows the multiplier in proportion, rounded down, so that it may come back from a sequence of
multipliers smaller than it was. What does not drift is the number of whole cycles that fit: whatever a
cycle moves per copy, what rounding takes is less than what the last of them needs.
-/

namespace Conveyor

namespace Stream

variable {s t u : Stream}

/-! ## Cycles that fit -/

/-- The same products have buffers, and of every cycle, whatever it moves per copy, as many fit into them. So
either both have room for one or neither has. -/
structure SameCycles (s t : Stream) : Prop where
  keys : t.buffers.keys = s.buffers.keys
  buffer : ∀ p b, s.buffers.get? p = some b → ∃ c, t.buffers.get? p = some c ∧
    ∀ units, 1 ≤ units → c.max / (units * t.mult) = b.max / (units * s.mult) ∧
      (units * t.mult ≤ c.max ↔ units * s.mult ≤ b.max)

namespace SameCycles

theorem refl (s : Stream) : s.SameCycles s :=
  ⟨rfl, fun _ b hb => ⟨b, hb, fun _ _ => ⟨rfl, Iff.rfl⟩⟩⟩

theorem trans (h : s.SameCycles t) (h' : t.SameCycles u) : s.SameCycles u where
  keys := h'.keys.trans h.keys
  buffer p b hb := by
    obtain ⟨c, hc, hcycles⟩ := h.buffer p b hb
    obtain ⟨d, hd, hcycles'⟩ := h'.buffer p c hc
    refine ⟨d, hd, fun units hunits => ?_⟩
    obtain ⟨hcount, hfits⟩ := hcycles units hunits
    obtain ⟨hcount', hfits'⟩ := hcycles' units hunits
    exact ⟨hcount'.trans hcount, hfits'.trans hfits⟩

end SameCycles

/-! ## One multiplier -/

/-- Of a capacity in proportion, rounded down, as many whole cycles are left. -/
theorem ediv_scaled {capacity mult n units : Int} (hmult : 1 ≤ mult) (hn : 1 ≤ n) :
    (capacity * n).fdiv mult / (units * n) = capacity / (units * mult) := by
  calc (capacity * n).fdiv mult / (units * n)
      = capacity * n / mult / (units * n) := by rw [Int.fdiv_eq_ediv_of_nonneg _ (by omega)]
    _ = capacity * n / (mult * (units * n)) := Int.ediv_ediv_of_nonneg (by omega)
    _ = capacity * n / (units * mult * n) := by rw [← Int.mul_assoc, Int.mul_comm mult units]
    _ = capacity / (units * mult) := Int.mul_ediv_mul_of_pos_left _ _ (by omega)

/-- A cycle fits where at least one does. -/
theorem le_iff_one_le_ediv {cycle capacity : Int} (hcycle : 1 ≤ cycle) : cycle ≤ capacity ↔ 1 ≤ capacity / cycle := by
  rw [Int.le_ediv_iff_mul_le (by omega), Int.one_mul]

theorem sameCycles_of_scale {n : Int} (hmult : 1 ≤ s.mult) (hn : 1 ≤ n) (h : s.scale n = .ok t) : s.SameCycles t where
  keys := by
    rw [scale_eq_ok h]
    exact Table.keys_mapValues _ _
  buffer p b hb := by
    have hnew : t.mult = n := by rw [scale_eq_ok h]
    refine ⟨b.resize ((b.max * n).fdiv s.mult), by rw [get?_scale h, hb]; rfl, fun units hunits => ?_⟩
    have hcount : (b.max * n).fdiv s.mult / (units * n) = b.max / (units * s.mult) := ediv_scaled hmult hn
    have hbefore : 1 ≤ units * s.mult := one_le_mul_of_one_le_of_one_le hunits hmult
    have hafter : 1 ≤ units * n := one_le_mul_of_one_le_of_one_le hunits hn
    rw [hnew]
    refine ⟨hcount, ?_⟩
    rw [le_iff_one_le_ediv hbefore, ← hcount]
    exact le_iff_one_le_ediv hafter

/-! ## A sequence of multipliers -/

/-- The stream scaled to one multiplier after the other. -/
def scaleThrough (s : Stream) (mults : List Int) : Except Fault Stream := mults.foldlM scale s

/-- What scaling to one multiplier keeps, a sequence of them keeps. -/
theorem exists_scaleThrough {Q : Stream → Prop}
    (hQ : ∀ s t n, Q s → 1 ≤ s.mult → 1 ≤ n → s.scale n = .ok t → Q t) {mults : List Int} (hs : Q s)
    (hmult : 1 ≤ s.mult) (hmults : ∀ n ∈ mults, 1 ≤ n) :
    ∃ t, s.scaleThrough mults = .ok t ∧ t.mult = mults.getLastD s.mult ∧ Q t := by
  induction mults generalizing s with
  | nil => exact ⟨s, rfl, rfl, hs⟩
  | cons n mults ih =>
    obtain ⟨hn, hrest⟩ := List.forall_mem_cons.1 hmults
    obtain ⟨s', hscale⟩ := exists_scale hmult n
    have hnew : s'.mult = n := by rw [scale_eq_ok hscale]
    obtain ⟨t, ht, hlast, hkept⟩ := ih (hQ s s' n hs hmult hn hscale) (by omega) hrest
    refine ⟨t, ?_, ?_, hkept⟩
    · rw [scaleThrough, List.foldlM_cons, hscale]
      exact ht
    · rw [hlast, hnew, List.getLastD_cons]

end Stream

/-! ## Balancing -/

namespace Arena

/-- Every stream of the earlier arena is there, and its buffers can hold as many cycles. -/
def SameCycles (a b : Arena) : Prop :=
  ∀ i s, a.stream? i = some s → ∃ t, b.stream? i = some t ∧ s.SameCycles t

/-- A raise only ever scales a stream that runs some copies, to more. -/
theorem sameCycles_closedUnderRaise (a : Arena) :
    Balancing.ClosedUnderRaise (fun _ => True) (fun _ => True) fun b => a.SameCycles b.arena where
  visits _ _ := trivial
  suppliers _ _ _ _ _ _ := trivial
  raise b hb u r r' n _ hr hmult hn hscale := by
    intro i s hs
    obtain ⟨t, ht, hcycles⟩ := hb i s hs
    rw [Balancing.afterRaise, stream?_modify, ht]
    split
    · subst i
      obtain rfl := Option.some.inj (hr.symm.trans ht)
      exact ⟨r', rfl, hcycles.trans (Stream.sameCycles_of_scale hmult (by omega) hscale)⟩
    · exact ⟨t, rfl, hcycles⟩

/-- Scaling a stream through any sequence of multipliers, up and down, keeps how many cycles each of its buffers
can hold, whatever their capacities and whatever a cycle moves. So balancing, whether it answers or is stopped,
makes no buffer too small for a cycle that fitted, and none large enough for a cycle that did not. -/
theorem cycles_survive_scaling :
    (∀ s : Stream, 1 ≤ s.mult → ∀ mults : List Int, (∀ n ∈ mults, 1 ≤ n) →
      ∃ t, s.scaleThrough mults = .ok t ∧ t.mult = mults.getLastD s.mult ∧ s.SameCycles t) ∧
    ∀ (before : Logged Arena) (i : Nat) (ε : Float), before.state.SameCycles ((solve i ε).after before).state := by
  constructor
  · intro s hmult mults hmults
    refine Stream.exists_scaleThrough (fun t u n ht ht' hn hscale => ?_) (Stream.SameCycles.refl s) hmult hmults
    exact ht.trans (Stream.sameCycles_of_scale ht' hn hscale)
  intro before i ε
  have hsolve := (sameCycles_closedUnderRaise before.state).keeps_solve i ε
  exact hsolve.after fun j s hs => ⟨s, hs, Stream.SameCycles.refl s⟩

/-- Three copies with room for five units hold one cycle of a unit each. By way of two copies and back they have room
for four, which still is one cycle. -/
theorem cycles_survive_scaling_down_and_up :
    let s : Stream := { (Stream.fresh (Recipe.every 1 (by decide) [] [⟨⟨0, 0⟩, 1⟩]) [] 3 8) with
      buffers := Table.insert ∅ ⟨0, 0⟩ ⟨0, 5⟩ }
    1 ≤ s.mult ∧ (∀ n ∈ [(2 : Int), 3], 1 ≤ n) ∧ ∃ t, s.scaleThrough [2, 3] = .ok t ∧ t.mult = 3 ∧
      t.buffers.get? ⟨0, 0⟩ = some ⟨0, 4⟩ ∧ (4 : Int) / (1 * 3) = 5 / (1 * 3) := by
  intro s
  obtain ⟨t, ht, hlast, hcycles⟩ := cycles_survive_scaling.1 s (by decide) [2, 3] (by decide)
  obtain ⟨c, hc, hcount⟩ := hcycles.buffer ⟨0, 0⟩ ⟨0, 5⟩ (by decide)
  have hbuffer : (s.scaleThrough [2, 3]).toOption.bind (·.buffers.get? ⟨0, 0⟩) = some ⟨0, 4⟩ := by decide +kernel
  rw [ht] at hbuffer
  obtain rfl := Option.some.inj (hc.symm.trans hbuffer)
  have hone := (hcount 1 (by decide)).1
  rw [hlast] at hone
  exact ⟨by decide, by decide, t, ht, hlast, hbuffer, hone⟩

end Arena

end Conveyor
