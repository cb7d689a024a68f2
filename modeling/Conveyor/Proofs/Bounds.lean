-- SUMMARY: Buffers never hold less than nothing or more than their capacity: through pulling, production, scaling and time.
import Conveyor.Proofs.Balancing
import Conveyor.Proofs.Simulation
import Conveyor.Proofs.Stream
import Mathlib.Tactic.Positivity

/-!
# Bounded buffers

A stream is sound if its recipe has positive amounts only, at least one copy runs, and every buffer
holds between nothing and its capacity. The first two are what the third needs: a cycle of at least
one copy of positive amounts never takes from an output or adds to an input, and a capacity scaled
from one positive multiplier to another stays a capacity.
-/

namespace Conveyor

/-! ## Buffers -/

/-- The stock is between nothing and the capacity. -/
structure Buffer.InBounds (b : Buffer) : Prop where
  current_nonneg : 0 ≤ b.current
  current_le : b.current ≤ b.max

namespace Buffer

instance (b : Buffer) : Decidable b.InBounds :=
  decidable_of_iff (0 ≤ b.current ∧ b.current ≤ b.max) ⟨fun h => ⟨h.1, h.2⟩, fun h => ⟨h.1, h.2⟩⟩

theorem inBounds_empty {capacity : Int} (h : 0 ≤ capacity) : InBounds ⟨0, capacity⟩ :=
  ⟨Int.le_refl 0, h⟩

theorem InBounds.resize {b : Buffer} (hb : b.InBounds) {capacity : Int} (h : 0 ≤ capacity) :
    (b.resize capacity).InBounds := by
  obtain ⟨hlow, hhigh⟩ := hb
  constructor
  · simp only [Buffer.resize, spill]; omega
  · simp only [Buffer.resize, spill]; omega

theorem InBounds.free_eq {b : Buffer} (hb : b.InBounds) : b.free = b.max - b.current := by
  have := hb.current_le
  simp only [free]
  omega

theorem movable_nonneg {b source : Buffer} (hs : source.InBounds) : 0 ≤ b.movable source := by
  have := hs.current_nonneg
  simp only [movable, free]
  omega

/-- What is moved leaves the source in bounds. -/
theorem InBounds.gain_neg_movable {b source : Buffer} (hs : source.InBounds) :
    (source.gain (-b.movable source)).InBounds := by
  have hmoved := movable_nonneg (b := b) hs
  have hle : b.movable source ≤ source.current := by simp only [movable]; omega
  have := hs.current_le
  constructor
  · simp only [gain_current]; omega
  · simp only [gain_current, gain_max]; omega

/-- What is moved fits, also if the destination has less in it by then. -/
theorem InBounds.gain_movable {b b' source : Buffer} (hb : b.InBounds) (hs : source.InBounds)
    (hb' : b'.InBounds) (hle : b'.current ≤ b.current) (hmax : b'.max = b.max) :
    (b'.gain (b.movable source)).InBounds := by
  have hmoved := movable_nonneg (b := b) hs
  have hfits : b.movable source ≤ b.max - b.current := by
    rw [← hb.free_eq]
    simp only [movable]
    omega
  have := hb'.current_nonneg
  constructor
  · simp only [gain_current]; omega
  · simp only [gain_current, gain_max]; omega

end Buffer

/-! ## Streams -/

/-- At least one copy of positive amounts runs on buffers in bounds. -/
structure Stream.Sound (s : Stream) : Prop where
  positive : s.recipe.Positive
  mult_pos : 1 ≤ s.mult
  inBounds : ∀ p b, s.buffers.get? p = some b → b.InBounds

namespace Stream

theorem fresh_sound {recipe : Recipe} {inputs : List Slot} {mult m : Int} (hr : recipe.Positive)
    (hmult : 1 ≤ mult) (hm : 0 ≤ m) : (fresh recipe inputs mult m).Sound where
  positive := hr
  mult_pos := hmult
  inBounds p b hb := by
    simp only [fresh, Table.get?_mapValues, Option.map_eq_some_iff] at hb
    obtain ⟨n, hn, rfl⟩ := hb
    rw [← Recipe.yieldOf_eq_of_get? hn]
    have hyield := Recipe.yieldOf_nonneg hr p
    exact Buffer.inBounds_empty (by positivity)

theorem Sound.openInput {s : Stream} (hs : s.Sound) {m : Int} (hm : 0 ≤ m) (p : Product) :
    (s.openInput p m).Sound where
  positive := by simpa using hs.positive
  mult_pos := by simpa using hs.mult_pos
  inBounds q b hb := by
    rw [get?_openInput] at hb
    split at hb
    · obtain rfl := Option.some.inj hb
      unfold inputBuffer
      cases hp : s.buffers.get? p with
      | some b => exact hs.inBounds p b hp
      | none =>
        have hrequired := Recipe.requiredOf_nonneg hs.positive p
        have hmult := hs.mult_pos
        exact Buffer.inBounds_empty (by positivity)
    · exact hs.inBounds q b hb

/-- A stream with one buffer changed is sound if that buffer is in bounds. -/
theorem Sound.gain {s : Stream} (hs : s.Sound) {p : Product} {n : Int}
    (h : ∀ b, s.buffers.get? p = some b → (b.gain n).InBounds) : (s.gain p n).Sound where
  positive := hs.positive
  mult_pos := hs.mult_pos
  inBounds q b hb := by
    rw [get?_gain] at hb
    split at hb
    · subst q
      obtain ⟨b₀, hb₀, rfl⟩ := Option.map_eq_some_iff.1 hb
      exact h b₀ hb₀
    · exact hs.inBounds q b hb

theorem Sound.insert {s : Stream} (hs : s.Sound) {p : Product} {b : Buffer} (hb : b.InBounds) :
    Sound { s with buffers := s.buffers.insert p b } where
  positive := hs.positive
  mult_pos := hs.mult_pos
  inBounds q c hc := by
    rw [Table.get?_insert] at hc
    split at hc
    · obtain rfl := Option.some.inj hc
      exact hb
    · exact hs.inBounds q c hc

theorem Sound.scale {s s' : Stream} (hs : s.Sound) {n : Int} (hn : 1 ≤ n)
    (h : s.scale n = .ok s') : s'.Sound := by
  obtain rfl := scale_eq_ok h
  refine ⟨hs.positive, hn, ?_⟩
  intro p b hb
  simp only [Table.get?_mapValues, Option.map_eq_some_iff] at hb
  obtain ⟨b₀, hb₀, rfl⟩ := hb
  have h₀ := hs.inBounds p b₀ hb₀
  have hmax : 0 ≤ b₀.max := Int.le_trans h₀.current_nonneg h₀.current_le
  have hmult := hs.mult_pos
  exact h₀.resize (Int.fdiv_nonneg (by positivity) (by omega))

theorem Sound.setNext {s : Stream} (hs : s.Sound) (next : Int) :
    Sound { s with next := some next } :=
  ⟨hs.positive, hs.mult_pos, hs.inBounds⟩

/-- A cycle takes no more than is in stock and adds no more than fits. A product on both sides has
one buffer; it passes both checks, so it stays in bounds by more than either asks for. -/
theorem Sound.produce? {s s' : Stream} (hs : s.Sound) (h : s.produce? = some s') : s'.Sound := by
  have hcan := canProduce_iff.1 (canProduce_of_produce? h)
  refine ⟨?_, ?_, ?_⟩
  · rw [eq_of_produce? h]; exact hs.positive
  · rw [eq_of_produce? h]; exact hs.mult_pos
  intro p b hb
  rw [get?_of_produce? h, Option.map_eq_some_iff] at hb
  obtain ⟨b₀, hb₀, rfl⟩ := hb
  have h₀ := hs.inBounds p b₀ hb₀
  have hlow := h₀.current_nonneg
  have hhigh := h₀.current_le
  have hmult := hs.mult_pos
  have hrequired : 0 ≤ s.recipe.requiredOf p * s.mult :=
    Int.mul_nonneg (Recipe.requiredOf_nonneg hs.positive p) (by omega)
  have hyield : 0 ≤ s.recipe.yieldOf p * s.mult :=
    Int.mul_nonneg (Recipe.yieldOf_nonneg hs.positive p) (by omega)
  have hstock : s.recipe.requiredOf p * s.mult ≤ b₀.current := by
    cases hn : s.recipe.inputTotals.get? p with
    | none => simpa [Recipe.requiredOf, Table.getD, hn] using hlow
    | some n =>
      obtain ⟨b, hb, hle⟩ := hcan.1 p n hn
      obtain rfl := Option.some.inj (hb₀.symm.trans hb)
      rwa [Recipe.requiredOf_eq_of_get? hn]
  have hroom : s.recipe.yieldOf p * s.mult ≤ b₀.max - b₀.current := by
    cases hn : s.recipe.outputTotals.get? p with
    | none => simp only [Recipe.yieldOf, Table.getD, hn, Option.getD_none]; omega
    | some n =>
      obtain ⟨b, hb, hle⟩ := hcan.2 p n hn
      obtain rfl := Option.some.inj (hb₀.symm.trans hb)
      rwa [Recipe.yieldOf_eq_of_get? hn, ← h₀.free_eq]
  have hdelta : s.mult * (s.recipe.yieldOf p - s.recipe.requiredOf p)
      = s.recipe.yieldOf p * s.mult - s.recipe.requiredOf p * s.mult := by ring
  constructor
  · rw [Buffer.gain_current, hdelta]; omega
  · rw [Buffer.gain_current, Buffer.gain_max, hdelta]; omega

end Stream

/-! ## Arenas -/

/-- Every stream is sound. -/
def Arena.Sound (a : Arena) : Prop :=
  ∀ i s, a.stream? i = some s → s.Sound

namespace Arena

theorem Sound.modify {a : Arena} (ha : a.Sound) {i : Nat} {f : Stream → Stream}
    (hf : ∀ s, a.stream? i = some s → (f s).Sound) : (a.modify i f).Sound := by
  intro j s hs
  rw [stream?_modify] at hs
  split at hs
  · subst j
    obtain ⟨s₀, hs₀, rfl⟩ := Option.map_eq_some_iff.1 hs
    exact hf s₀ hs₀
  · exact ha j s hs

theorem Sound.append {a : Arena} (ha : a.Sound) {s : Stream} (hs : s.Sound) :
    Sound ⟨a.streams ++ [s]⟩ := by
  intro i t ht
  obtain hmem | rfl := List.mem_append.1 (List.mem_of_getElem? ht) |>.imp_right List.mem_singleton.1
  · obtain ⟨j, hj⟩ := List.mem_iff_getElem?.1 hmem
    exact ha j t hj
  · exact hs

theorem Sound.truncate {a : Arena} (ha : a.Sound) (length : Int) : (a.truncate length).Sound := by
  intro i s hs
  obtain ⟨j, hj⟩ := List.mem_iff_getElem?.1 (List.mem_of_mem_take (List.mem_of_getElem? hs))
  exact ha j s hj

/-! ## Pulling -/

theorem Sound.openInput {a : Arena} (ha : a.Sound) {m : Int} (hm : 0 ≤ m) (i : Nat) (p : Product) :
    (a.openInput i p m).Sound :=
  ha.modify fun s hs => (ha i s hs).openInput hm p

/-- Source and destination may be one buffer. It has then lost what it is about to gain. -/
theorem Sound.transfer {a : Arena} (ha : a.Sound) (i u : Nat) (p : Product) :
    (a.transfer i u p).Sound := by
  unfold Arena.transfer
  split
  next dest source hd hc₀ =>
    obtain ⟨s, hs, hb⟩ := buffer?_eq_some_iff.1 hd
    obtain ⟨t, ht, hc⟩ := buffer?_eq_some_iff.1 hc₀
    have hdest := (ha i s hs).inBounds p dest hb
    have hsource := (ha u t ht).inBounds p source hc
    have hmoved := Buffer.movable_nonneg (b := dest) hsource
    have hleft := hsource.gain_neg_movable (b := dest)
    have hafter : (a.modify u (·.gain p (-dest.movable source))).Sound := by
      apply ha.modify
      intro t' ht'
      obtain rfl := Option.some.inj (ht.symm.trans ht')
      apply (ha u t ht).gain
      intro c' hc'
      obtain rfl := Option.some.inj (hc.symm.trans hc')
      exact hleft
    apply hafter.modify
    intro s' hs'
    apply (hafter i s' hs').gain
    intro b' hb'
    rw [stream?_modify, hs] at hs'
    split at hs'
    · obtain rfl := Option.some.inj hs'
      rw [Stream.get?_gain, if_pos rfl, hb] at hb'
      obtain rfl := Option.some.inj hb'
      subst i
      obtain rfl := Option.some.inj (hs.symm.trans ht)
      obtain rfl := Option.some.inj (hb.symm.trans hc)
      apply hdest.gain_movable hsource hleft
      · rw [Buffer.gain_current]; omega
      · rfl
    · obtain rfl := Option.some.inj hs'
      obtain rfl := Option.some.inj (hb.symm.trans hb')
      exact hdest.gain_movable hsource hdest (Int.le_refl _) rfl
  next => exact ha

theorem sound_closedUnderTime {m : Int} (hm : 0 ≤ m) : ClosedUnderTime m Sound where
  openInput _ ha := ha.openInput hm
  transfer _ _ i _ _ slot _ _ hb := hb.transfer i slot.supplier slot.product
  produce _ ha i s _ hs hproduce := ha.modify fun _ _ => (ha i s hs).produce? hproduce
  setNext _ ha i next := ha.modify fun s hs => (ha i s hs).setNext next

theorem keeps_sound_tick {m : Int} (hm : 0 ≤ m) (ticks : Int) (order : TickOrder) :
    Action.Keeps Sound (tick ticks order m) :=
  (sound_closedUnderTime hm).keeps_tick ticks order

end Arena

/-! ## Balancing -/

theorem Balancing.sound_closedUnderRaise :
    ClosedUnderRaise (fun _ => True) (fun _ => True) fun b => b.arena.Sound where
  visits _ _ := trivial
  suppliers _ _ _ _ _ _ := trivial
  raise _ hb u s _ _ _ hs hmult hn hscale :=
    hb.modify fun _ _ => (hb u s hs).scale (Int.le_of_lt (Int.lt_of_le_of_lt hmult hn)) hscale

theorem Arena.keeps_sound_solve (i : Nat) (ε : Float) :
    Action.Keeps Arena.Sound (Arena.solve i ε) :=
  Balancing.sound_closedUnderRaise.keeps_solve i ε

end Conveyor
