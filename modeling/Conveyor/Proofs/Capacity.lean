-- SUMMARY: Per copy no buffer can hold more than the largest capacity that was given or is opened for an input.
import Conveyor.Proofs.Bounds
import Conveyor.Proofs.Stock
import Mathlib.Algebra.BigOperators.Ring.List

/-!
# Capacities per copy

A capacity is given outright, or it follows from what one copy consumes or yields. A raise scales it in
proportion to the copies, rounded down. So the capacity of a buffer per copy never gets above the largest
that was given or is opened for an input, and with it the stock: how often balancing is asked for and how
much time passes does not matter.
-/

namespace Conveyor

/-- No buffer holds more than `B` units per copy, nor will one that is opened for an input. -/
structure Stream.Capped (m : Int) (B : Nat) (s : Stream) : Prop where
  demand_le : ∀ p, s.recipe.requiredOf p * m ≤ B
  max_le : ∀ p b, s.buffers.get? p = some b → b.max ≤ B * s.mult

namespace Stream

variable {m : Int} {B : Nat} {s s' : Stream} {p : Product}

theorem Capped.openInput (hs : s.Capped m B) (hmult : 1 ≤ s.mult) (p : Product) : (s.openInput p m).Capped m B where
  demand_le := by simpa using hs.demand_le
  max_le q b hb := by
    rw [openInput_mult]
    rw [get?_openInput] at hb
    split at hb
    · obtain rfl := Option.some.inj hb
      unfold inputBuffer
      cases hp : s.buffers.get? p with
      | some b => exact hs.max_le p b hp
      | none => exact Int.mul_le_mul_of_nonneg_right (hs.demand_le p) (by omega)
    · exact hs.max_le q b hb

theorem Capped.gain (hs : s.Capped m B) (p : Product) (n : Int) : (s.gain p n).Capped m B where
  demand_le := hs.demand_le
  max_le q b hb := by
    rw [get?_gain] at hb
    split at hb
    · obtain ⟨c, hc, rfl⟩ := Option.map_eq_some_iff.1 hb
      exact hs.max_le q c hc
    · exact hs.max_le q b hb

theorem Capped.produce? (hs : s.Capped m B) (h : s.produce? = some s') : s'.Capped m B where
  demand_le := by rw [eq_of_produce? h]; exact hs.demand_le
  max_le q b hb := by
    rw [get?_of_produce? h] at hb
    obtain ⟨c, hc, rfl⟩ := Option.map_eq_some_iff.1 hb
    rw [eq_of_produce? h]
    exact hs.max_le q c hc

/-- The copies go up, and the capacities with them. -/
theorem Capped.scale (hs : s.Capped m B) (hmult : 1 ≤ s.mult) {n : Int} (hn : 0 ≤ n)
    (h : s.scale n = .ok s') : s'.Capped m B := by
  obtain rfl := scale_eq_ok h
  refine ⟨hs.demand_le, fun q b hb => ?_⟩
  simp only [Table.get?_mapValues, Option.map_eq_some_iff] at hb
  obtain ⟨c, hc, rfl⟩ := hb
  have hmax : c.max * n ≤ B * n * s.mult := by
    rw [Int.mul_right_comm]
    exact Int.mul_le_mul_of_nonneg_right (hs.max_le q c hc) hn
  change (c.max * n).fdiv s.mult ≤ B * n
  rw [Int.fdiv_eq_ediv_of_nonneg _ (by omega)]
  exact Int.ediv_le_of_le_mul (by omega) hmax

/-- A buffer may get a capacity up to the bound. -/
theorem Capped.insert (hs : s.Capped m B) (hmult : 1 ≤ s.mult) {b : Buffer} (hb : b.max ≤ B) :
    Capped m B { s with buffers := s.buffers.insert p b } where
  demand_le := hs.demand_le
  max_le q c hc := by
    rw [Table.get?_insert] at hc
    split at hc
    · obtain rfl := Option.some.inj hc
      exact hb.trans (le_mul_of_one_le_right (Int.natCast_nonneg B) hmult)
    · exact hs.max_le q c hc

end Stream

namespace Arena

/-- The streams are sound, and none of their buffers holds more than `B` units per copy. -/
structure Capped (m : Int) (B : Nat) (a : Arena) : Prop where
  sound : a.Sound
  stream : ∀ i s, a.stream? i = some s → s.Capped m B

variable {m : Int} {B : Nat} {a : Arena} {i : Nat}

theorem capped_closedUnderTime (hm : 0 ≤ m) : ClosedUnderTime m (Capped m B) where
  openInput _ ha i p := ⟨ha.sound.openInput hm i p,
    forall_stream_modify ha.stream fun s hs => (ha.stream i s hs).openInput (ha.sound i s hs).mult_pos p⟩
  transfer _ _ i _ _ slot _ _ hb := ⟨hb.sound.transfer i slot.supplier slot.product,
    forall_stream_transfer (fun _ hs => hs.gain) hb.stream i slot.supplier slot.product⟩
  produce _ ha i s _ hs hproduce := ⟨ha.sound.modify fun _ _ => (ha.sound i s hs).produce? hproduce,
    forall_stream_modify ha.stream fun _ _ => (ha.stream i s hs).produce? hproduce⟩
  setNext _ ha i next := ⟨ha.sound.modify fun s hs => (ha.sound i s hs).setNext next,
    forall_stream_modify ha.stream fun s hs => ⟨(ha.stream i s hs).demand_le, (ha.stream i s hs).max_le⟩⟩

theorem capped_closedUnderRaise :
    Balancing.ClosedUnderRaise (fun _ => True) (fun _ => True) fun b => Capped m B b.arena where
  visits _ _ := trivial
  suppliers _ _ _ _ _ _ := trivial
  raise b hb u s s' n _ hs hmult hn hscale := by
    have hpos : 0 ≤ n := by omega
    exact ⟨hb.sound.modify fun _ _ => (hb.sound u s hs).scale (by omega) hscale,
      forall_stream_modify hb.stream fun _ _ => (hb.stream u s hs).scale hmult hpos hscale⟩

/-- A capacity up to the bound may be given to a buffer. -/
theorem Capped.resize (ha : a.Capped m B) {s : Stream} (hs : a.stream? i = some s) {p : Product} {b : Buffer}
    (hb : s.buffers.get? p = some b) {capacity : Int} (hlow : 0 ≤ capacity) (hhigh : capacity ≤ B) :
    (a.modify i fun t => { t with buffers := t.buffers.insert p (b.resize capacity) }).Capped m B := by
  have hbuffer := ((ha.sound i s hs).inBounds p b hb).resize hlow
  constructor
  · refine ha.sound.modify fun t ht => ?_
    exact (ha.sound i t ht).insert hbuffer
  · exact forall_stream_modify ha.stream fun t ht => (ha.stream i t ht).insert (ha.sound i t ht).mult_pos hhigh

/-- What makes an arena capped can be checked stream by stream. -/
theorem capped_of_forall_mem (h : ∀ s ∈ a.streams, s.recipe.Positive ∧ 1 ≤ s.mult ∧
    (∀ b ∈ s.buffers.values, b.InBounds ∧ b.max ≤ B * s.mult) ∧ ∀ n ∈ s.recipe.inputTotals.values, n * m ≤ B) :
    a.Capped m B := by
  constructor
  · intro i s hs
    obtain ⟨hpositive, hmult, hbuffers, -⟩ := h s (List.mem_of_getElem? hs)
    exact ⟨hpositive, hmult, fun p b hb => (hbuffers b (Table.mem_values_iff.2 ⟨p, hb⟩)).1⟩
  · intro i s hs
    obtain ⟨-, -, hbuffers, hdemand⟩ := h s (List.mem_of_getElem? hs)
    refine ⟨fun p => ?_, fun p b hb => (hbuffers b (Table.mem_values_iff.2 ⟨p, hb⟩)).2⟩
    cases hn : s.recipe.inputTotals.get? p with
    | some n =>
      rw [Recipe.requiredOf_eq_of_get? hn]
      exact hdemand n (Table.mem_values_iff.2 ⟨p, hn⟩)
    | none =>
      rw [Recipe.requiredOf, Table.getD, hn, Option.getD_none, Int.zero_mul]
      exact Int.natCast_nonneg B

/-! ## Stock -/

/-- Copies that the streams have together. -/
def totalCopies (a : Arena) : Int := (a.streams.map Stream.mult).sum

theorem Capped.exists_stream (ha : a.Capped m B) {s : Stream} (hs : s ∈ a.streams) :
    s.Sound ∧ s.Capped m B := by
  obtain ⟨i, hi⟩ := List.mem_iff_getElem?.1 hs
  exact ⟨ha.sound i s hi, ha.stream i s hi⟩

theorem Capped.mult_le_totalCopies (ha : a.Capped m B) {s : Stream} (hs : s ∈ a.streams) :
    s.mult ≤ a.totalCopies := by
  refine List.single_le_sum (fun n hn => ?_) _ (List.mem_map_of_mem hs)
  obtain ⟨t, ht, rfl⟩ := List.mem_map.1 hn
  have := (ha.exists_stream ht).1.mult_pos
  omega

/-- What a buffer holds and can hold is between nothing and the bound for all copies. -/
theorem Capped.buffer_le (ha : a.Capped m B) {p : Product} {b : Buffer} (hb : a.buffer? i p = some b) :
    b.InBounds ∧ b.max ≤ B * a.totalCopies := by
  obtain ⟨s, hs, hb⟩ := buffer?_eq_some_iff.1 hb
  refine ⟨(ha.sound i s hs).inBounds p b hb, ((ha.stream i s hs).max_le p b hb).trans ?_⟩
  exact Int.mul_le_mul_of_nonneg_left (ha.mult_le_totalCopies (List.mem_of_getElem? hs)) (Int.natCast_nonneg B)

theorem Capped.stock_le (ha : a.Capped m B) (p : Product) : 0 ≤ a.stock p ∧ a.stock p ≤ B * a.totalCopies := by
  have hstream (s : Stream) (hs : s ∈ a.streams) : 0 ≤ s.stock p ∧ s.stock p ≤ B * s.mult := by
    obtain ⟨hsound, hcapped⟩ := ha.exists_stream hs
    unfold Stream.stock
    cases hb : s.buffers.get? p with
    | none =>
      have := hsound.mult_pos
      exact ⟨Int.le_refl 0, Int.mul_nonneg (Int.natCast_nonneg B) (by omega)⟩
    | some b =>
      have hbounds := hsound.inBounds p b hb
      exact ⟨hbounds.current_nonneg, hbounds.current_le.trans (hcapped.max_le p b hb)⟩
  unfold stock totalCopies
  refine ⟨List.sum_nonneg fun n hn => ?_, ?_⟩
  · obtain ⟨s, hs, rfl⟩ := List.mem_map.1 hn
    exact (hstream s hs).1
  · rw [← List.sum_map_mul_left]
    exact List.sum_le_sum fun s hs => (hstream s hs).2

end Arena

end Conveyor
