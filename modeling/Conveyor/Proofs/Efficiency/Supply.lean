-- SUMMARY: How many copies of each stream its supplies keep running, in exact arithmetic.
import Conveyor.Proofs.Raises
import Conveyor.Proofs.Recipe
import Conveyor.Proofs.Stock
import Mathlib.Algebra.BigOperators.Ring.List

/-!
# Exact supply

Every copy of a stream takes and gives its products at fixed rates. The copies that run for good are
as many as there are, unless some product arrives at a rate for fewer. More copies of any stream never
leave another one with less.
-/

namespace Conveyor

/-! ## One copy -/

namespace Stream

/-- The stream is one that registration makes: the recipe cycles once every whole number of ticks, all
parts are units of something, each input part has its slot, and some copy runs. -/
structure Built (s : Stream) : Prop where
  timed : ∃ n, s.recipe.IsTimed n
  positive : s.recipe.Positive
  slots : s.inputs.map Slot.product = s.recipe.inputs.map Part.product
  copies : 1 ≤ s.mult

/-- The recipe cycles once every whole number of ticks, all parts are units of something, and some copy
runs. What is bound to the slots does not matter. -/
structure Steady (s : Stream) : Prop where
  timed : ∃ n, s.recipe.IsTimed n
  positive : s.recipe.Positive
  copies : 1 ≤ s.mult

theorem Built.steady {s : Stream} (hs : s.Built) : s.Steady := ⟨hs.timed, hs.positive, hs.copies⟩

/-- Ticks of one cycle. -/
def period (s : Stream) : ℚ := s.recipe.rate.ticks.value

/-- Units of a product that one copy takes each tick. -/
def demand (s : Stream) (p : Product) : ℚ := s.recipe.requiredOf p / s.period

/-- Units of a product that one copy gives each tick. -/
def output (s : Stream) (p : Product) : ℚ := s.recipe.yieldOf p / s.period

namespace Steady

variable {s : Stream} {p : Product}

theorem period_pos (hs : s.Steady) : 0 < s.period := by
  obtain ⟨n, hn⟩ := hs.timed
  rw [period, hn.ticks]
  exact Int.cast_pos.2 hn.pos

theorem exists_period (hs : s.Steady) : ∃ n : Nat, s.recipe.period = .ok n ∧ 0 < n := by
  obtain ⟨n, hn⟩ := hs.timed
  lift n to Nat using Int.le_of_lt hn.pos
  refine ⟨n, ?_, Int.natCast_pos.1 hn.pos⟩
  rw [Recipe.period, hn.ticks]
  rfl

theorem one_le_mult (hs : s.Steady) : (1 : ℚ) ≤ s.mult := by
  exact_mod_cast hs.copies

theorem demand_pos (hs : s.Steady) (hp : p ∈ s.recipe.inputProducts) : 0 < s.demand p :=
  div_pos (Int.cast_pos.2 (Recipe.requiredOf_pos hs.positive hp)) hs.period_pos

theorem output_nonneg (hs : s.Steady) (p : Product) : 0 ≤ s.output p :=
  div_nonneg (Int.cast_nonneg (Recipe.yieldOf_nonneg hs.positive p)) hs.period_pos.le

theorem output_pos (hs : s.Steady) (hp : p ∈ s.recipe.outputs.map Part.product) : 0 < s.output p :=
  div_pos (Int.cast_pos.2 (Recipe.yieldOf_pos hs.positive hp)) hs.period_pos

end Steady

namespace Built

variable {s : Stream} {p : Product}

/-- Every input product has a slot. -/
theorem exists_slot (hs : s.Built) (hp : p ∈ s.recipe.inputProducts) :
    ∃ slot ∈ s.inputs, slot.product = p := by
  have hmem := Recipe.mem_inputProducts.1 hp
  rw [← hs.slots] at hmem
  exact List.mem_map.1 hmem

theorem inputProducts_eq_nil (hs : s.Built) (hleaf : s.isLeaf = true) : s.recipe.inputProducts = [] := by
  refine List.eq_nil_iff_forall_not_mem.2 fun p hp => ?_
  obtain ⟨slot, hslot, _⟩ := hs.exists_slot hp
  rw [List.isEmpty_iff.1 hleaf] at hslot
  cases hslot

theorem mem_inputProducts (hs : s.Built) {slot : Slot} (hslot : slot ∈ s.inputs) :
    slot.product ∈ s.recipe.inputProducts := by
  rw [Recipe.mem_inputProducts, ← hs.slots]
  exact List.mem_map_of_mem hslot

theorem exists_inputProduct (hs : s.Built) (hleaf : s.isLeaf = false) :
    ∃ p, p ∈ s.recipe.inputProducts := by
  obtain ⟨slot, hslot⟩ := List.exists_mem_of_ne_nil _ (List.isEmpty_eq_false_iff.1 hleaf)
  exact ⟨slot.product, hs.mem_inputProducts hslot⟩

end Built

end Stream

namespace Arena

/-- Streams are bound to earlier streams only, and each is one that registration makes. -/
structure Built (a : Arena) : Prop where
  bindsEarlier : a.BindsEarlier
  stream : ∀ i s, a.stream? i = some s → s.Built

/-- All streams are steady, whatever they are bound to. -/
def Steady (a : Arena) : Prop := ∀ i s, a.stream? i = some s → s.Steady

theorem Built.steady {a : Arena} (ha : a.Built) : a.Steady := fun i s hs => (ha.stream i s hs).steady

/-- Every input slot is bound to a stream whose recipe gives the product of the slot. -/
def Fed (a : Arena) : Prop :=
  ∀ i s, a.stream? i = some s → ∀ slot ∈ s.inputs, ∃ t, a.stream? slot.supplier = some t ∧
    slot.product ∈ t.recipe.outputs.map Part.product

/-! ## Copies that run -/

/-- Copies that stream `i` has. -/
def copies (a : Arena) (i : Nat) : Int := ((a.stream? i).map Stream.mult).getD 0

/-- Units of a product that one copy of stream `u` gives each tick. -/
def output (a : Arena) (u : Nat) (p : Product) : ℚ := ((a.stream? u).map (·.output p)).getD 0

/-- Units of a product that the suppliers of a stream give each tick, if so many copies of each run. -/
def supply (a : Arena) (f : Nat → ℚ) (s : Stream) (p : Product) : ℚ :=
  (s.suppliers.map fun u => a.output u p * f u).sum

/-- Copies of a stream that its suppliers keep running, if so many copies of each run. -/
def runningBy (a : Arena) (f : Nat → ℚ) (s : Stream) : ℚ :=
  (s.recipe.inputProducts.map fun p => a.supply f s p / s.demand p).foldl min s.mult

/-- Copies of stream `i` that run. -/
def running (a : Arena) (i : Nat) : ℚ :=
  match a.stream? i with
  | none => 0
  | some s => a.runningBy (fun u => if u < i then running a u else 0) s
termination_by i

/-- Links of the longest supply chain behind stream `i`. -/
def depth (a : Arena) (i : Nat) : Nat :=
  match a.stream? i with
  | none => 0
  | some s => (s.suppliers.map fun u => if u < i then depth a u + 1 else 0).foldl max 0
termination_by i

variable {a b : Arena} {i u : Nat} {s t : Stream} {p : Product} {f g : Nat → ℚ}

theorem supply_congr (h : ∀ u ∈ s.suppliers, f u = g u) : a.supply f s p = a.supply g s p :=
  congrArg List.sum (List.map_congr_left fun u hu => by rw [h u hu])

theorem runningBy_congr (h : ∀ u ∈ s.suppliers, f u = g u) : a.runningBy f s = a.runningBy g s := by
  unfold runningBy
  rw [List.map_congr_left fun p _ => by rw [supply_congr h]]

theorem running_eq (ha : a.BindsEarlier) (hs : a.stream? i = some s) :
    a.running i = a.runningBy a.running s := by
  rw [running, hs]
  exact runningBy_congr fun u hu => if_pos (ha.lt (supplies_of_mem hs hu))

/-- So many copies run if there are so many, and enough of every product arrives for them. -/
theorem le_running_iff (ha : a.Built) (hs : a.stream? i = some s) {c : ℚ} :
    c ≤ a.running i ↔
      c ≤ s.mult ∧ ∀ p ∈ s.recipe.inputProducts, c * s.demand p ≤ a.supply a.running s p := by
  rw [running_eq ha.bindsEarlier hs, runningBy, le_foldl_min, List.forall_mem_map]
  refine and_congr_right fun _ => forall₂_congr fun p hp => ?_
  exact le_div_iff₀ ((ha.stream i s hs).steady.demand_pos hp)

theorem copies_eq (hs : a.stream? i = some s) : a.copies i = s.mult := by
  rw [copies, hs]
  rfl

theorem copies_nonneg (ha : a.Built) (i : Nat) : (0 : ℚ) ≤ a.copies i := by
  unfold copies
  cases hs : a.stream? i with
  | none => exact le_refl _
  | some s => exact zero_le_one.trans (ha.stream i s hs).steady.one_le_mult

theorem output_eq (hs : a.stream? u = some t) (p : Product) : a.output u p = t.output p := by
  rw [output, hs]
  rfl

theorem output_nonneg (ha : a.Built) (u : Nat) (p : Product) : 0 ≤ a.output u p := by
  unfold output
  cases hu : a.stream? u with
  | none => exact le_refl 0
  | some t => exact (ha.stream u t hu).steady.output_nonneg p

theorem supply_mono (ha : a.Built) (h : ∀ u ∈ s.suppliers, f u ≤ g u) :
    a.supply f s p ≤ a.supply g s p :=
  List.sum_le_sum fun u hu => mul_le_mul_of_nonneg_left (h u hu) (output_nonneg ha u p)

/-- What one supplier gives arrives. -/
theorem le_supply (ha : a.Built) (hf : ∀ u, 0 ≤ f u) (hu : u ∈ s.suppliers) :
    a.output u p * f u ≤ a.supply f s p := by
  refine List.single_le_sum (fun x hx => ?_) _ (List.mem_map_of_mem hu)
  obtain ⟨v, _, rfl⟩ := List.mem_map.1 hx
  exact mul_nonneg (output_nonneg ha v p) (hf v)

theorem supply_mul (c : ℚ) : a.supply (fun u => f u * c) s p = a.supply f s p * c := by
  simp only [supply, ← mul_assoc]
  exact List.sum_map_mul_right _ _ _

theorem supply_nonneg (ha : a.Built) (hf : ∀ u ∈ s.suppliers, 0 ≤ f u) : 0 ≤ a.supply f s p :=
  List.sum_nonneg (List.forall_mem_map.2 fun u hu => mul_nonneg (output_nonneg ha u p) (hf u hu))

theorem running_nonneg (ha : a.Built) (i : Nat) : 0 ≤ a.running i := by
  induction i using Nat.strong_induction_on with
  | _ i ih =>
  cases hs : a.stream? i with
  | none =>
    rw [running, hs]
  | some s =>
    refine (le_running_iff ha hs).2 ⟨zero_le_one.trans (ha.stream i s hs).steady.one_le_mult, fun p _ => ?_⟩
    rw [zero_mul]
    exact supply_nonneg ha fun u hu => ih u (ha.bindsEarlier.lt (supplies_of_mem hs hu))

/-! ## Depth -/

theorem le_foldl_max {m k : Nat} {xs : List Nat} :
    xs.foldl max m ≤ k ↔ m ≤ k ∧ ∀ x ∈ xs, x ≤ k := by
  induction xs generalizing m with
  | nil => simp
  | cons x xs ih => rw [List.foldl_cons, ih, Nat.max_le, List.forall_mem_cons, and_assoc]

theorem depth_lt (ha : a.BindsEarlier) (hu : a.Supplies u i) : a.depth u < a.depth i := by
  obtain ⟨s, hs, slot, hslot, rfl⟩ := hu
  have hmem : slot.supplier ∈ s.suppliers :=
    List.mem_eraseDups.2 (List.mem_map_of_mem hslot)
  have hlt := ha.lt ⟨s, hs, slot, hslot, rfl⟩
  rw [depth.eq_1 a i, hs]
  have hle := (le_foldl_max.1 (le_refl
    ((s.suppliers.map fun u => if u < i then a.depth u + 1 else 0).foldl max 0))).2
  exact hle _ (List.mem_map.2 ⟨slot.supplier, hmem, if_pos hlt⟩)

/-- Each link leads to an earlier stream. -/
theorem depth_le (a : Arena) (i : Nat) : a.depth i ≤ i := by
  induction i using Nat.strong_induction_on with
  | _ i ih =>
  rw [depth]
  split
  · exact Nat.zero_le i
  · refine le_foldl_max.2 ⟨Nat.zero_le i, List.forall_mem_map.2 fun u _ => ?_⟩
    split
    next hlt => exact (Nat.succ_le_succ (ih u hlt)).trans hlt
    next => exact Nat.zero_le i

/-- A stream with bindings has a chain behind it. -/
theorem exists_depth_eq (ha : a.BindsEarlier) (hs : a.stream? i = some s) (hleaf : s.isLeaf = false) :
    ∃ d, a.depth i = d + 1 := by
  obtain ⟨slot, hslot⟩ := List.exists_mem_of_ne_nil _ (List.isEmpty_eq_false_iff.1 hleaf)
  have hlt := depth_lt ha ⟨s, hs, slot, hslot, rfl⟩
  exact ⟨a.depth i - 1, by omega⟩

/-! ## More copies -/

end Arena

/-- The later stream is the same one at as many copies or more. -/
structure Stream.Raised (s t : Stream) : Prop where
  recipe : t.recipe = s.recipe
  inputs : t.inputs = s.inputs
  mult_le : s.mult ≤ t.mult

/-- The same streams, some of them at more copies. -/
structure Arena.Raised (a b : Arena) : Prop where
  size : b.size = a.size
  stream : ∀ i s, a.stream? i = some s → ∃ t, b.stream? i = some t ∧ s.Raised t

namespace Stream.Raised

variable {s t : Stream}

theorem built (h : s.Raised t) (hs : s.Built) : t.Built where
  timed := h.recipe ▸ hs.timed
  positive := h.recipe ▸ hs.positive
  slots := by rw [h.inputs, h.recipe, hs.slots]
  copies := Int.le_trans hs.copies h.mult_le

theorem suppliers (h : s.Raised t) : t.suppliers = s.suppliers := by
  rw [Stream.suppliers, Stream.suppliers, h.inputs]

theorem period (h : s.Raised t) : t.period = s.period := by
  rw [Stream.period, Stream.period, h.recipe]

theorem demand (h : s.Raised t) (p : Product) : t.demand p = s.demand p := by
  rw [Stream.demand, Stream.demand, h.period, h.recipe]

theorem output (h : s.Raised t) (p : Product) : t.output p = s.output p := by
  rw [Stream.output, Stream.output, h.period, h.recipe]

end Stream.Raised

namespace Arena.Raised

variable {a b c : Arena} {i u : Nat} {s t : Stream}

theorem refl (a : Arena) : a.Raised a :=
  ⟨rfl, fun _ s hs => ⟨s, hs, rfl, rfl, Int.le_refl _⟩⟩

theorem trans (h : a.Raised b) (h' : b.Raised c) : a.Raised c where
  size := h'.size.trans h.size
  stream i s hs := by
    obtain ⟨t, ht, hst⟩ := h.stream i s hs
    obtain ⟨u, hu, htu⟩ := h'.stream i t ht
    exact ⟨u, hu, htu.recipe.trans hst.recipe, htu.inputs.trans hst.inputs,
      Int.le_trans hst.mult_le htu.mult_le⟩

theorem modify {f : Stream → Stream} (h : ∀ s, a.stream? i = some s → s.Raised (f s)) :
    a.Raised (a.modify i f) where
  size := size_modify a i f
  stream j s hs := by
    rw [stream?_modify, hs]
    split
    · subst j
      exact ⟨f s, rfl, h s hs⟩
    · exact ⟨s, rfl, rfl, rfl, Int.le_refl _⟩

theorem replace (hs : a.stream? i = some s) (h : s.Raised t) : a.Raised (a.modify i fun _ => t) :=
  modify fun _ hr => Option.some.inj (hs.symm.trans hr) ▸ h

/-- A stream after the raises is one from before them. -/
theorem exists_stream (h : a.Raised b) (ht : b.stream? i = some t) :
    ∃ s, a.stream? i = some s ∧ s.Raised t := by
  obtain ⟨s, hs⟩ := exists_stream?_of_size_eq h.size ht
  obtain ⟨t', ht', hst⟩ := h.stream i s hs
  obtain rfl := Option.some.inj (ht.symm.trans ht')
  exact ⟨s, hs, hst⟩

theorem supplies_iff (h : a.Raised b) : b.Supplies u i ↔ a.Supplies u i := by
  constructor
  · rintro ⟨t, ht, slot, hslot, rfl⟩
    obtain ⟨s, hs, hst⟩ := h.exists_stream ht
    exact ⟨s, hs, slot, hst.inputs ▸ hslot, rfl⟩
  · rintro ⟨s, hs, slot, hslot, rfl⟩
    obtain ⟨t, ht, hst⟩ := h.stream i s hs
    exact ⟨t, ht, slot, hst.inputs ▸ hslot, rfl⟩

theorem bindsEarlier (h : a.Raised b) (ha : a.BindsEarlier) : b.BindsEarlier := by
  rintro ⟨t, j⟩ he slot hslot
  have ht : b.stream? j = some t := List.mem_zipIdx_iff_getElem?.1 he
  exact ha.lt (h.supplies_iff.1 ⟨t, ht, slot, hslot, rfl⟩)

theorem built (h : a.Raised b) (ha : a.Built) : b.Built where
  bindsEarlier := h.bindsEarlier ha.bindsEarlier
  stream i t ht := by
    obtain ⟨s, hs, hst⟩ := h.exists_stream ht
    exact hst.built (ha.stream i s hs)

theorem fed (h : a.Raised b) (ha : a.Fed) : b.Fed := by
  intro i t ht slot hslot
  obtain ⟨s, hs, hst⟩ := h.exists_stream ht
  obtain ⟨u, hu, hmem⟩ := ha i s hs slot (hst.inputs ▸ hslot)
  obtain ⟨v, hv, huv⟩ := h.stream slot.supplier u hu
  exact ⟨v, hv, huv.recipe.symm ▸ hmem⟩

theorem stream?_eq_none (h : a.Raised b) (hb : b.stream? i = none) : a.stream? i = none := by
  rw [Option.eq_none_iff_forall_ne_some]
  intro s hs
  obtain ⟨t, ht, _⟩ := h.stream i s hs
  rw [hb] at ht
  cases ht

theorem output_eq (h : a.Raised b) (u : Nat) (p : Product) : b.output u p = a.output u p := by
  cases hu : b.stream? u with
  | none => rw [output, output, hu, h.stream?_eq_none hu]
  | some t =>
    obtain ⟨s, hs, hst⟩ := h.exists_stream hu
    rw [Arena.output_eq hu, Arena.output_eq hs, hst.output]

theorem copies_le (h : a.Raised b) (u : Nat) : a.copies u ≤ b.copies u := by
  cases hu : b.stream? u with
  | none => rw [copies, copies, hu, h.stream?_eq_none hu]
  | some t =>
    obtain ⟨s, hs, hst⟩ := h.exists_stream hu
    rw [copies_eq hu, copies_eq hs]
    exact hst.mult_le

theorem depth_eq (h : a.Raised b) (i : Nat) : b.depth i = a.depth i := by
  induction i using Nat.strong_induction_on with
  | _ i ih =>
  cases hb : b.stream? i with
  | none => rw [depth, depth, hb, h.stream?_eq_none hb]
  | some t =>
    obtain ⟨s, hs, hst⟩ := h.exists_stream hb
    rw [depth.eq_1 b, depth.eq_1 a, hb, hs]
    simp only [hst.suppliers]
    congr 1
    refine List.map_congr_left fun u _ => ?_
    split
    next hlt => rw [ih u hlt]
    · rfl

/-- More copies anywhere leave no stream with fewer that run. -/
theorem running_le (h : a.Raised b) (ha : a.Built) (i : Nat) : a.running i ≤ b.running i := by
  induction i using Nat.strong_induction_on with
  | _ i ih =>
  cases hs : a.stream? i with
  | none =>
    rw [running, hs]
    exact running_nonneg (h.built ha) i
  | some s =>
    obtain ⟨t, ht, hst⟩ := h.stream i s hs
    obtain ⟨hmult, hsupply⟩ := (le_running_iff ha hs).1 (le_refl _)
    refine (le_running_iff (h.built ha) ht).2 ⟨hmult.trans (Int.cast_le.2 hst.mult_le), fun p hp => ?_⟩
    calc a.running i * t.demand p = a.running i * s.demand p := by rw [hst.demand]
      _ ≤ a.supply a.running s p := hsupply p (hst.recipe ▸ hp)
      _ = b.supply a.running t p := by
        simp only [supply, hst.suppliers, h.output_eq]
      _ ≤ b.supply b.running t p := supply_mono (h.built ha) fun u hu =>
        ih u ((h.built ha).bindsEarlier.lt (supplies_of_mem ht hu))

end Arena.Raised

/-! ## What raises copies -/

theorem Stream.Same.raised {s t : Stream} (h : s.Same t) : s.Raised t :=
  ⟨h.recipe, h.inputs, Int.le_of_eq h.mult.symm⟩

theorem Stream.raised_of_scale {s t : Stream} {n : Int} (hn : s.mult < n) (h : s.scale n = .ok t) :
    s.Raised t :=
  scale_eq_ok h ▸ ⟨rfl, rfl, Int.le_of_lt hn⟩

namespace Arena

theorem Kept.raised {is : List Nat} {a b : Arena} (h : Kept is a b) : a.Raised b where
  size := h.size
  stream i s hs := by
    obtain ⟨t, ht, hsame, _⟩ := h.stream i s hs
    exact ⟨t, ht, hsame.raised⟩

/-- Passing time leaves the copies as they are. -/
theorem raised_closedUnderTime (a : Arena) (m : Int) : ClosedUnderTime m a.Raised where
  openInput _ hb i p := hb.trans (Kept.openInput _ i p m).raised
  transfer _ _ i _ _ slot _ _ hb := hb.trans (Kept.transfer _ i slot.supplier slot.product).raised
  produce _ hb _ _ _ hs hproduce := hb.trans (.replace hs (Stream.produce?_same hproduce).raised)
  setNext _ hb _ _ := hb.trans (.modify fun _ _ => (Stream.setNext_same _ _).raised)

/-- Balancing only ever adds copies. -/
theorem raised_closedUnderRaise (a : Arena) :
    Balancing.ClosedUnderRaise (fun _ => True) (fun _ => True) fun b => a.Raised b.arena where
  visits _ _ := trivial
  suppliers _ _ _ _ _ _ := trivial
  raise _ hb _ _ _ _ _ hs _ hn hscale :=
    hb.trans (.replace hs (Stream.raised_of_scale hn hscale))

end Arena

end Conveyor
