-- SUMMARY: What a recipe takes and gives per cycle, and the rates it is asked for, are one set of figures.
import Conveyor.Proofs.Recipe
import Conveyor.Proofs.Stock

/-!
# Totals and rates

The totals of a recipe are counted up part by part in a table, its rates are added up part by part.
Both come to the sum of the parts of a product, however the parts repeat: a rate is that sum over the
period, or the zero rate. A cycle moves the same figures, once for each copy.
-/

namespace Conveyor

/-! ## Order of first appearance -/

/-- Every element of `xs` once, in the order in which they first appear there. -/
structure FirstAppearances {α : Type} [DecidableEq α] (xs ys : List α) : Prop where
  nodup : ys.Nodup
  mem_iff : ∀ y, y ∈ ys ↔ y ∈ xs
  ordered : ys.Pairwise fun y z => xs.idxOf y < xs.idxOf z

namespace FirstAppearances

variable {α : Type} [DecidableEq α] {xs ys : List α}

theorem nil : FirstAppearances ([] : List α) [] := ⟨.nil, fun _ => Iff.rfl, .nil⟩

/-- One more element leaves the places of those that were there. -/
theorem ordered_append (h : FirstAppearances xs ys) (x : α) :
    ys.Pairwise fun y z => (xs ++ [x]).idxOf y < (xs ++ [x]).idxOf z := by
  refine h.ordered.imp_of_mem fun hy hz hlt => ?_
  rwa [List.idxOf_append_of_mem ((h.mem_iff _).1 hy), List.idxOf_append_of_mem ((h.mem_iff _).1 hz)]

theorem snoc_known (h : FirstAppearances xs ys) {x : α} (hx : x ∈ ys) : FirstAppearances (xs ++ [x]) ys where
  nodup := h.nodup
  mem_iff y := by
    rw [List.mem_append, List.mem_singleton, h.mem_iff]
    refine ⟨Or.inl, ?_⟩
    rintro (hy | rfl)
    · exact hy
    · exact (h.mem_iff _).1 hx
  ordered := h.ordered_append x

theorem snoc_new (h : FirstAppearances xs ys) {x : α} (hx : x ∉ ys) :
    FirstAppearances (xs ++ [x]) (ys ++ [x]) where
  nodup := List.nodup_append.2 ⟨h.nodup, List.nodup_singleton x, fun y hy z hz heq =>
    hx (List.mem_singleton.1 hz ▸ heq ▸ hy)⟩
  mem_iff y := by rw [List.mem_append, List.mem_append, h.mem_iff]
  ordered := by
    refine List.pairwise_append.2 ⟨h.ordered_append x, List.pairwise_singleton _ x, fun y hy z hz => ?_⟩
    obtain rfl := List.mem_singleton.1 hz
    have hmem := (h.mem_iff y).1 hy
    rw [List.idxOf_append_of_mem hmem, List.idxOf_append_of_notMem fun hz => hx ((h.mem_iff z).2 hz)]
    exact Nat.lt_add_right _ (List.idxOf_lt_length_of_mem hmem)

end FirstAppearances

namespace Recipe

variable {r : Recipe} {n u : Int} {ρ : Rate}

/-- A table of totals is keyed in the order in which the products first appear. -/
theorem keys_totals (parts : List Part) : FirstAppearances (parts.map Part.product) (totals parts).keys := by
  induction parts using List.reverseRecOn with
  | nil => exact .nil
  | append_singleton parts part ih =>
    have hkeys : (totals (parts ++ [part])).keys = if part.product ∈ (totals parts).keys
        then (totals parts).keys else (totals parts).keys ++ [part.product] := by
      rw [totals, List.foldl_append]
      exact Table.keys_insert ..
    rw [hkeys, List.map_append]
    split
    next hknown => exact ih.snoc_known hknown
    next hnew => exact ih.snoc_new hnew

/-! ## Rates -/

/-- So many units over the period, or the zero rate if there are none. -/
def perCycle (n units : Int) : Except Fault Rate :=
  if 0 < units then Rate.make units (.whole n) else .ok Rate.zero

theorem IsRateOf.perCycle_eq_ok (hρ : IsRateOf n u ρ) : perCycle n u = .ok ρ := by
  obtain ⟨amount, ticks, hamount, hticks⟩ := ρ
  obtain ⟨rfl, rfl⟩ : amount = u ∧ ticks = .whole (if u = 0 then 1 else n) := ⟨hρ.amount, hρ.ticks⟩
  unfold perCycle
  split
  next hpos =>
    simp only [if_neg (Int.ne_of_gt hpos)] at hticks ⊢
    exact Rate.make_eq_ok ⟨amount, .whole n, hamount, hticks⟩
  next hnone =>
    obtain rfl : amount = 0 := Int.le_antisymm (Int.not_lt.1 hnone) hamount
    rfl

/-- The rates of a product, of which so many units are taken and so many are given each cycle. -/
structure HasRates (r : Recipe) (n : Int) (ρ σ : Product → Rate) : Prop where
  inflow : ∀ p, r.inflowOf p = .ok (ρ p) ∧ perCycle n (r.requiredOf p) = .ok (ρ p) ∧ (ρ p).amount = r.requiredOf p
  outflow : ∀ p, r.outflowOf p = .ok (σ p) ∧ perCycle n (r.yieldOf p) = .ok (σ p) ∧ (σ p).amount = r.yieldOf p

theorem IsTimed.exists_hasRates (hr : r.IsTimed n) (hpos : r.Positive) : ∃ ρ σ, r.HasRates n ρ σ := by
  choose ρ hinflow hρ using inflowOf_eq_ok hr hpos
  choose σ houtflow hσ using outflowOf_eq_ok hr hpos
  exact ⟨ρ, σ, fun p => ⟨hinflow p, (hρ p).perCycle_eq_ok, (hρ p).amount⟩,
    fun p => ⟨houtflow p, (hσ p).perCycle_eq_ok, (hσ p).amount⟩⟩

end Recipe

/-! ## Cycles -/

/-- A cycle of the stream needs and moves what the rates `ρ` take and `σ` give, once for each copy. -/
structure Stream.RunsOn (s : Stream) (ρ σ : Product → Rate) : Prop where
  canProduce_iff : s.canProduce = true ↔
    (∀ p ∈ s.recipe.inputs.map Part.product,
      ∃ b, s.buffers.get? p = some b ∧ (ρ p).amount * s.mult ≤ b.current) ∧
    ∀ p ∈ s.recipe.outputs.map Part.product,
      ∃ b, s.buffers.get? p = some b ∧ (σ p).amount * s.mult ≤ b.free
  stock_of_produce? : ∀ s', s.produce? = some s' → ∀ p,
    s'.stock p = s.stock p + s.mult * ((σ p).amount - (ρ p).amount)

theorem Recipe.HasRates.runsOn {s : Stream} {n : Int} {ρ σ : Product → Rate} (h : s.recipe.HasRates n ρ σ) :
    s.RunsOn ρ σ where
  canProduce_iff := by
    simp only [fun p => (h.inflow p).2.2, fun p => (h.outflow p).2.2]
    exact Stream.canProduce_iff_products
  stock_of_produce? s' hs' p := by
    rw [(h.inflow p).2.2, (h.outflow p).2.2]
    exact Stream.stock_of_produce? hs' p

namespace Recipe

/-- However its parts repeat, a recipe is asked for the rates of the totals that its cycles move, and a
total is the sum of the parts of a product. -/
theorem rates_are_totals {n : Int} (hn : 0 < n) {inputs outputs : List Part}
    (hinputs : ∀ part ∈ inputs, 0 < part.amount) (houtputs : ∀ part ∈ outputs, 0 < part.amount) :
    ∃ r, ofPeriod (.int n) inputs outputs = .ok r ∧ r.inputs = inputs ∧ r.outputs = outputs ∧
      (∀ p, r.requiredOf p = units inputs p ∧ r.yieldOf p = units outputs p) ∧
      FirstAppearances (inputs.map Part.product) r.inputProducts ∧
      ∃ ρ σ, r.HasRates n ρ σ ∧ ∀ s : Stream, s.recipe = r → s.RunsOn ρ σ := by
  obtain ⟨ρ, σ, hrates⟩ := (every_isTimed hn inputs outputs).exists_hasRates ⟨hinputs, houtputs⟩
  refine ⟨every n hn inputs outputs, dif_pos hn, rfl, rfl, fun p => ⟨getD_totals .., getD_totals ..⟩,
    keys_totals inputs, ρ, σ, hrates, ?_⟩
  rintro s hs
  exact (hs ▸ hrates : s.recipe.HasRates n ρ σ).runsOn

/-- Five units of the first product are taken in two parts and one is given back, one unit of the second
is taken and seven are given in two parts. So each copy needs five units of the first in stock for a cycle,
which leaves four less. -/
theorem rates_are_totals_four :
    let inputs : List Part := [⟨⟨0, 0⟩, 2⟩, ⟨⟨1, 0⟩, 1⟩, ⟨⟨0, 0⟩, 3⟩]
    let outputs : List Part := [⟨⟨1, 0⟩, 5⟩, ⟨⟨0, 0⟩, 1⟩, ⟨⟨1, 0⟩, 2⟩]
    (∀ part ∈ inputs ++ outputs, 0 < part.amount) ∧
    ∃ r ρ σ, ofPeriod (.int 4) inputs outputs = .ok r ∧ r.inputProducts = [⟨0, 0⟩, ⟨1, 0⟩] ∧ r.HasRates 4 ρ σ ∧
      ((ρ ⟨0, 0⟩).amount = 5 ∧ (σ ⟨0, 0⟩).amount = 1 ∧ (ρ ⟨1, 0⟩).amount = 1 ∧ (σ ⟨1, 0⟩).amount = 7) ∧
      ∀ s : Stream, s.recipe = r →
        (s.canProduce = true → ∃ b, s.buffers.get? ⟨0, 0⟩ = some b ∧ 5 * s.mult ≤ b.current) ∧
        ∀ t, s.produce? = some t → t.stock ⟨0, 0⟩ = s.stock ⟨0, 0⟩ - 4 * s.mult := by
  intro inputs outputs
  have hinputs : ∀ part ∈ inputs, 0 < part.amount := by decide
  have houtputs : ∀ part ∈ outputs, 0 < part.amount := by decide
  obtain ⟨r, hr, hparts, _, hunits, _, ρ, σ, hrates, hruns⟩ := rates_are_totals (n := 4) (by decide) hinputs houtputs
  have hproducts : r.inputProducts = [⟨0, 0⟩, ⟨1, 0⟩] := by
    obtain rfl := Except.ok.inj hr
    decide
  have hamounts (p : Product) : (ρ p).amount = units inputs p ∧ (σ p).amount = units outputs p :=
    ⟨(hrates.inflow p).2.2.trans (hunits p).1, (hrates.outflow p).2.2.trans (hunits p).2⟩
  have htaken : (ρ ⟨0, 0⟩).amount = 5 := (hamounts _).1
  have hgiven : (σ ⟨0, 0⟩).amount = 1 := (hamounts _).2
  refine ⟨List.forall_mem_append.2 ⟨hinputs, houtputs⟩, r, ρ, σ, hr, hproducts, hrates,
    ⟨htaken, hgiven, (hamounts _).1, (hamounts _).2⟩, fun s hs => ⟨fun hcan => ?_, fun t ht => ?_⟩⟩
  · have hdraws : ⟨0, 0⟩ ∈ s.recipe.inputs.map Part.product := by
      rw [hs, hparts]
      exact List.mem_cons_self
    exact htaken ▸ ((hruns s hs).canProduce_iff.1 hcan).1 ⟨0, 0⟩ hdraws
  · rw [(hruns s hs).stock_of_produce? t ht, htaken, hgiven]
    ring

end Recipe

end Conveyor
