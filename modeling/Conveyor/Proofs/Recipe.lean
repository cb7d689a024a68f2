-- SUMMARY: The rate of a product is the units that a cycle takes or gives, over the ticks of the cycle.
import Conveyor.Proofs.Rate
import Conveyor.Proofs.Stream

/-!
# Rates of products

A recipe may list a product in several parts. Their rates are over one base, so they add up to the
rate of the total, and a product that is not listed has no rate.
-/

namespace Conveyor

open Binary64

namespace Recipe

/-- One cycle every so many whole ticks. -/
structure IsTimed (r : Recipe) (n : Int) : Prop where
  amount : r.rate.amount = 1
  ticks : r.rate.ticks = .whole n

/-- So many units each cycle; no units are over the base of the zero rate. -/
structure IsRateOf (n units : Int) (ρ : Rate) : Prop where
  amount : ρ.amount = units
  ticks : ρ.ticks = .whole (if units = 0 then 1 else n)

variable {r : Recipe} {n u v : Int} {ρ σ : Rate}

/-! ## Products and their units -/

theorem mem_keys_foldl {parts : List Part} {t : Table Product Int} {p : Product} :
    p ∈ (parts.foldl (fun t part => t.insert part.product (t.getD part.product 0 + part.amount))
      t).keys ↔ p ∈ t.keys ∨ p ∈ parts.map Part.product := by
  induction parts generalizing t with
  | nil => simp
  | cons part parts ih =>
    have hinsert : p ∈ (t.insert part.product (t.getD part.product 0 + part.amount)).keys ↔
        p ∈ t.keys ∨ p = part.product := by
      rw [Table.keys_insert]
      split
      · grind
      · simp
    rw [List.foldl_cons, ih, hinsert, List.map_cons, List.mem_cons, or_assoc]

theorem mem_keys_totals {parts : List Part} {p : Product} :
    p ∈ (totals parts).keys ↔ p ∈ parts.map Part.product := by
  have hempty : (∅ : Table Product Int).keys = [] := rfl
  unfold totals
  rw [mem_keys_foldl, hempty]
  simp only [List.not_mem_nil, false_or]

theorem mem_inputProducts {p : Product} : p ∈ r.inputProducts ↔ p ∈ r.inputs.map Part.product :=
  mem_keys_totals

theorem units_pos {parts : List Part} (h : ∀ part ∈ parts, 0 < part.amount) {p : Product}
    (hp : p ∈ parts.map Part.product) : 0 < units parts p := by
  obtain ⟨part, hpart, rfl⟩ := List.mem_map.1 hp
  have hmem : part ∈ parts.filter (·.product = part.product) :=
    List.mem_filter.2 ⟨hpart, decide_eq_true rfl⟩
  refine Int.lt_of_lt_of_le (h part hpart) (List.single_le_sum (fun n hn => ?_) _
    (List.mem_map_of_mem hmem))
  obtain ⟨q, hq, rfl⟩ := List.mem_map.1 hn
  exact Int.le_of_lt (h q (List.mem_filter.1 hq).1)

theorem filter_product_eq_nil {parts : List Part} {p : Product} (hp : p ∉ parts.map Part.product) :
    parts.filter (·.product = p) = [] :=
  List.filter_eq_nil_iff.2 fun _ hpart heq => hp (of_decide_eq_true heq ▸ List.mem_map_of_mem hpart)

theorem units_eq_zero {parts : List Part} {p : Product} (hp : p ∉ parts.map Part.product) :
    units parts p = 0 := by
  rw [units, filter_product_eq_nil hp]
  rfl

theorem requiredOf_eq_zero {p : Product} (hp : p ∉ r.inputProducts) : r.requiredOf p = 0 := by
  rw [requiredOf, inputTotals, getD_totals]
  exact units_eq_zero (mem_inputProducts.not.1 hp)

theorem yieldOf_eq_zero {p : Product} (hp : p ∉ r.outputs.map Part.product) : r.yieldOf p = 0 := by
  rw [yieldOf, outputTotals, getD_totals]
  exact units_eq_zero hp

theorem mem_inputProducts_of_requiredOf {p : Product} (h : 0 < r.requiredOf p) : p ∈ r.inputProducts := by
  by_contra hp
  exact Int.ne_of_gt h (requiredOf_eq_zero hp)

theorem mem_outputs_of_yieldOf {p : Product} (h : 0 < r.yieldOf p) : p ∈ r.outputs.map Part.product := by
  by_contra hp
  exact Int.ne_of_gt h (yieldOf_eq_zero hp)

theorem requiredOf_pos (h : r.Positive) {p : Product} (hp : p ∈ r.inputProducts) :
    0 < r.requiredOf p := by
  rw [requiredOf, inputTotals, getD_totals]
  exact units_pos h.inputs (mem_inputProducts.1 hp)

theorem yieldOf_pos (h : r.Positive) {p : Product} (hp : p ∈ r.outputs.map Part.product) :
    0 < r.yieldOf p := by
  rw [yieldOf, outputTotals, getD_totals]
  exact units_pos h.outputs hp

/-! ## Rates of products -/

theorem every_isTimed (h : 0 < n) (inputs outputs : List Part) :
    (every n h inputs outputs).IsTimed n := ⟨rfl, rfl⟩

theorem IsTimed.pos (hr : r.IsTimed n) : 0 < n := by
  have hpos := r.rate.ticks_pos
  rw [hr.ticks] at hpos
  exact hpos

theorem isRateOf_zero : IsRateOf n 0 Rate.zero := ⟨rfl, rfl⟩

theorem IsTimed.times_eq_ok (hr : r.IsTimed n) (hu : 0 < u) :
    ∃ σ, r.rate.times u = .ok σ ∧ IsRateOf n u σ := by
  have hamount : r.rate.amount * u = u := by rw [hr.amount, Int.one_mul]
  have hnonneg : 0 ≤ r.rate.amount * u := Int.le_of_lt (hamount.symm ▸ hu)
  refine ⟨⟨_, _, hnonneg, r.rate.ticks_pos⟩, ?_, hamount, ?_⟩
  · rw [Rate.times, if_neg (Int.ne_of_gt hu)]
    exact Rate.make_eq_ok ⟨_, _, hnonneg, r.rate.ticks_pos⟩
  · rw [if_neg (Int.ne_of_gt hu)]
    exact hr.ticks

/-- Rates of one recipe add up unit by unit. -/
theorem IsRateOf.add_eq_ok (hρ : IsRateOf n u ρ) (hσ : IsRateOf n v σ) (hv : 0 < v) :
    ∃ τ, ρ.add σ = .ok τ ∧ IsRateOf n (u + v) τ := by
  have hu : 0 ≤ u := hρ.amount ▸ ρ.amount_nonneg
  have hσzero : σ.isZero = false := decide_eq_false (by rw [hσ.amount]; exact Int.ne_of_gt hv)
  unfold Rate.add
  rw [hσzero]
  cases Decidable.em (u = 0) with
  | inl hu0 =>
    subst hu0
    have hρzero : ρ.isZero = true := decide_eq_true hρ.amount
    rw [hρzero, Int.zero_add]
    exact ⟨σ, rfl, hσ⟩
  | inr hu0 =>
    have hρzero : ρ.isZero = false := decide_eq_false (by rw [hρ.amount]; exact hu0)
    have hticks : ρ.ticks = .whole n := by rw [hρ.ticks, if_neg hu0]
    have hsame : ρ.ticks.same σ.ticks = true := by
      rw [hticks, hσ.ticks, if_neg (Int.ne_of_gt hv)]
      simp [Number.same, Number.order]
    have hsum : u + v ≠ 0 := by omega
    have hnonneg := Int.add_nonneg ρ.amount_nonneg σ.amount_nonneg
    refine ⟨⟨_, _, hnonneg, ρ.ticks_pos⟩, ?_, congrArg₂ (· + ·) hρ.amount hσ.amount, ?_⟩
    · rw [hρzero, hsame]
      exact Rate.make_eq_ok ⟨_, _, hnonneg, ρ.ticks_pos⟩
    · rw [if_neg hsum]
      exact hticks

theorem foldlM_eq_ok (hr : r.IsTimed n) {parts : List Part} (hparts : ∀ part ∈ parts, 0 < part.amount)
    (hρ : IsRateOf n u ρ) :
    ∃ τ, (parts.foldlM (fun total part => do
      let rate ← r.rate.times part.amount
      total.add rate) ρ) = .ok τ ∧ IsRateOf n (u + (parts.map Part.amount).sum) τ := by
  induction parts generalizing u ρ with
  | nil => exact ⟨ρ, rfl, by simpa using hρ⟩
  | cons part parts ih =>
    have hpart := hparts part List.mem_cons_self
    obtain ⟨σ, htimes, hσ⟩ := hr.times_eq_ok hpart
    obtain ⟨τ, hadd, hτ⟩ := hρ.add_eq_ok hσ hpart
    obtain ⟨total, hfold, htotal⟩ := ih (fun q hq => hparts q (List.mem_cons_of_mem _ hq)) hτ
    refine ⟨total, ?_, ?_⟩
    · rw [List.foldlM_cons, htimes]
      change ρ.add σ >>= _ = _
      rw [hadd]
      exact hfold
    · simpa [Int.add_assoc] using htotal

/-- Part by part the rates of a product add up to the rate of its units. -/
theorem flowOf_eq_ok (hr : r.IsTimed n) {parts : List Part}
    (hparts : ∀ part ∈ parts, 0 < part.amount) (p : Product) :
    ∃ ρ, r.flowOf parts p = .ok ρ ∧ IsRateOf n (units parts p) ρ := by
  have hfiltered : ∀ part ∈ parts.filter (·.product = p), 0 < part.amount :=
    fun part hpart => hparts part (List.mem_filter.1 hpart).1
  have hfold := foldlM_eq_ok hr hfiltered (isRateOf_zero (n := n))
  rwa [Int.zero_add] at hfold

theorem inflowOf_eq_ok (hr : r.IsTimed n) (hpos : r.Positive) (p : Product) :
    ∃ ρ, r.inflowOf p = .ok ρ ∧ IsRateOf n (r.requiredOf p) ρ := by
  rw [requiredOf, inputTotals, getD_totals]
  exact flowOf_eq_ok hr hpos.inputs p

theorem outflowOf_eq_ok (hr : r.IsTimed n) (hpos : r.Positive) (p : Product) :
    ∃ ρ, r.outflowOf p = .ok ρ ∧ IsRateOf n (r.yieldOf p) ρ := by
  rw [yieldOf, outputTotals, getD_totals]
  exact flowOf_eq_ok hr hpos.outputs p

namespace IsRateOf

theorem flow_eq (hρ : IsRateOf n u ρ) : ρ.flow = u / n := by
  unfold Rate.flow
  rw [hρ.amount, hρ.ticks]
  split
  next hzero => rw [hzero, Int.cast_zero, zero_div, zero_div]
  · rfl

/-- Some copies of a rate of some units are over the base of the rate. -/
theorem exists_times {k : Int} (hρ : IsRateOf n u ρ) (hu : 1 ≤ u) (hk : 1 ≤ k) :
    ∃ σ, ρ.times k = .ok σ ∧ σ.ticks = .whole n ∧ σ.flow = (u * k : Int) / n := by
  have htimes := Rate.times_of_pos (r := ρ) hk
  refine ⟨_, htimes, hρ.ticks.trans (by rw [if_neg (Int.ne_of_gt hu)]), ?_⟩
  rw [Rate.flow_times htimes, hρ.flow_eq, Int.cast_mul, div_mul_eq_mul_div]

end IsRateOf

end Recipe

/-! ## Buffers by product -/

namespace Stream

/-- A fresh stream has an empty buffer for each product that comes out of it. -/
theorem get?_fresh (recipe : Recipe) (slots : List Slot) (mult m : Int) (p : Product) :
    (fresh recipe slots mult m).buffers.get? p = if p ∈ recipe.outputs.map Part.product then
      some ⟨0, recipe.yieldOf p * m * mult⟩ else none := by
  rw [fresh, Table.get?_mapValues]
  cases hp : recipe.outputTotals.get? p with
  | none =>
    have hkey : p ∉ recipe.outputTotals.keys := by simp [Table.mem_keys_iff, hp]
    rw [if_neg (fun hmem => hkey (Recipe.mem_keys_totals.2 hmem))]
    rfl
  | some amount =>
    have hkey := Recipe.mem_keys_totals.1 (Table.mem_keys_iff.2 ⟨amount, hp⟩)
    rw [if_pos hkey, Recipe.yieldOf_eq_of_get? hp]
    rfl

/-- A cycle can run if of every product that it takes there is enough, and for every one that it yields
there is room enough. -/
theorem canProduce_iff_products {s : Stream} :
    s.canProduce = true ↔
      (∀ p ∈ s.recipe.inputs.map Part.product,
        ∃ b, s.buffers.get? p = some b ∧ s.recipe.requiredOf p * s.mult ≤ b.current) ∧
      ∀ p ∈ s.recipe.outputs.map Part.product,
        ∃ b, s.buffers.get? p = some b ∧ s.recipe.yieldOf p * s.mult ≤ b.free := by
  have hlisted {parts : List Part} {Q : Product → Int → Prop} :
      (∀ p n, (Recipe.totals parts).get? p = some n → Q p n) ↔
        ∀ p ∈ parts.map Part.product, Q p ((Recipe.totals parts).getD p 0) := by
    constructor
    · intro h p hp
      obtain ⟨n, hn⟩ := Table.mem_keys_iff.1 (Recipe.mem_keys_totals.2 hp)
      rw [Table.getD, hn]
      exact h p n hn
    · intro h p n hn
      have hp := h p (Recipe.mem_keys_totals.1 (Table.mem_keys_iff.2 ⟨n, hn⟩))
      rwa [Table.getD, hn] at hp
  rw [canProduce_iff]
  exact and_congr hlisted hlisted

end Stream

end Conveyor
