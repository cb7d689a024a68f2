-- SUMMARY: Sharing what is settled never changes an answer: a query gives what the plain recursive definition gives.
import Conveyor.Proofs.Efficiency.Formula
import Mathlib

/-!
# Efficiency without a memory

The plain definition asks for every efficiency afresh and keeps no path, so it goes round in circles
where streams supply themselves. It is cut off here where calls nest too deep. Where no stream supplies
itself, it comes to an end before that, and a query gives the same: the same value, or the same fault.
-/

namespace Conveyor.Arena

/-! ## The plain definition -/

mutual

/-- The efficiency of stream `i`. Calls of this function nest at most `n` deep: the one below that
gives `cut`. -/
def plainEfficiency (cut : Except Fault Float) (a : Arena) (n i : Nat) : Except Fault Float :=
  match n with
  | 0 => cut
  | n + 1 => do
    let s ← a.stream i
    if s.isLeaf then return 1.0
    let ratios ← s.recipe.inputProducts.mapM fun p => do
      let inflow ← s.recipe.inflowOf p
      let optimal ← inflow.times s.mult
      if optimal.isZero then return none
      let supplied ← plainSuppliedRate cut a n i p
      let ratio ← supplied.ratio optimal
      return some ratio
    return leastRatio (ratios.filterMap id)
termination_by (n, 0)

/-- What the suppliers of stream `i` give of a product. -/
def plainSuppliedRate (cut : Except Fault Float) (a : Arena) (n i : Nat) (p : Product) :
    Except Fault Rate := do
  let s ← a.stream i
  s.suppliers.foldlM (fun total u => do
    match ← plainRateOf cut a n u p with
    | some rate => total.add rate
    | none => return total) Rate.zero
termination_by (n, 2)

/-- What stream `i` gives of a product, if it makes it. -/
def plainRateOf (cut : Except Fault Float) (a : Arena) (n i : Nat) (p : Product) :
    Except Fault (Option Rate) := do
  let s ← a.stream i
  let outflow ← s.recipe.outflowOf p
  if outflow.isZero then return none
  let stretched ← outflow.stretch (← plainEfficiency cut a n i)
  let total ← stretched.times s.mult
  return some total
termination_by (n, 1)

end

variable {a : Arena} {i : Nat} {s : Stream} (cut : Except Fault Float) (n : Nat)

theorem plainRateOf_eq (p : Product) :
    plainRateOf cut a n i p = realizedBy (plainEfficiency cut a n) a i p := by
  rw [plainRateOf]
  rfl

theorem plainSuppliedRate_eq (p : Product) :
    plainSuppliedRate cut a n i p = suppliedBy (plainEfficiency cut a n) a i p := by
  rw [plainSuppliedRate]
  simp only [plainRateOf_eq]
  rfl

theorem plainEfficiency_of_none (hs : a.stream? i = none) :
    plainEfficiency cut a (n + 1) i = .error .noSuchIndex := by
  have hstream : a.stream i = .error .noSuchIndex := by rw [stream, hs]
  rw [plainEfficiency, hstream]
  rfl

theorem plainEfficiency_of_some (hs : a.stream? i = some s) :
    plainEfficiency cut a (n + 1) i =
      if s.isLeaf then .ok 1.0 else efficiencyBy (plainEfficiency cut a n) a i s := by
  have hstream : a.stream i = .ok s := by rw [stream, hs]
  rw [plainEfficiency, hstream]
  simp only [plainSuppliedRate_eq]
  rfl

/-! ## Deep enough -/

/-- Calls that nest `n` deep are enough for stream `i`: whatever is put for the call that is cut off,
the plain definition gives what the query gives. -/
def Deep (a : Arena) (n i : Nat) : Prop := ∀ cut, plainEfficiency cut a n i = a.efficiency i

/-- A stream needs one call more than what it asks for. -/
theorem deep_succ (hi : a.AcyclicFrom i) (h : ∀ u, a.Asks i u → a.Deep n u) : a.Deep (n + 1) i := by
  intro cut
  cases hs : a.stream? i with
  | none => rw [plainEfficiency_of_none cut n hs, efficiency_of_none hs]
  | some s =>
    rw [plainEfficiency_of_some cut n hs]
    cases hleaf : s.isLeaf with
    | true => exact (efficiency_of_isLeaf hs hleaf).symm
    | false =>
      rw [efficiency_of_suppliers hi hs hleaf]
      exact efficiencyBy_congr hs fun u hu => h u hu cut

/-- Where each stream of some kind has a depth that is enough for it, the greatest of these depths is
enough for all of them. -/
theorem eventually_deep_forall {P : Nat → Prop} (h : ∀ u, P u → ∀ᶠ n in Filter.atTop, a.Deep n u) :
    ∀ᶠ n in Filter.atTop, ∀ u < a.size, P u → a.Deep n u :=
  (Filter.eventually_all_finite (Set.finite_lt_nat a.size)).2 fun u _ =>
    Filter.eventually_imp_distrib_left.2 (h u)

theorem eventually_deep (hi : a.AcyclicFrom i) : ∀ᶠ n in Filter.atTop, a.Deep n i := by
  refine AcyclicFrom.induction hi fun i hi ih => ?_
  obtain ⟨depth, hdepth⟩ := Filter.eventually_atTop.1 (eventually_deep_forall ih)
  refine Filter.eventually_atTop.2 ⟨depth + 1, fun n hn => ?_⟩
  obtain ⟨k, rfl⟩ := Nat.exists_eq_add_of_le' (Nat.le_of_add_left_le hn)
  refine deep_succ k hi fun u hu => ?_
  obtain ⟨_, hdraws⟩ := hu.draws
  exact hdepth k (Nat.le_of_succ_le_succ hn) u hdraws.lt_size hu

/-! ## Queries -/

/-- Where nothing that is asked on the way depends on itself, the plain definition comes to an end, and
a query gives the same value or the same fault. What is supplied of a product depends on the suppliers
that make it, and on the stream itself only if it is one of them. -/
theorem queries_eq_plain (hi : a.AcyclicFrom i) :
    ∃ depth, ∀ n ≥ depth, ∀ cut,
      plainEfficiency cut a n i = a.efficiency i ∧
        (∀ p, plainRateOf cut a n i p = a.rateOf i p) ∧
        ∀ p, (∀ u, a.Draws i p u → a.AcyclicFrom u) →
          plainSuppliedRate cut a n i p = a.suppliedRate i p := by
  have hsuppliers := eventually_deep_forall fun u (hu : a.AcyclicFrom u) => eventually_deep hu
  obtain ⟨depth, hdepth⟩ := Filter.eventually_atTop.1 ((eventually_deep hi).and hsuppliers)
  refine ⟨depth, fun n hn cut => ?_⟩
  obtain ⟨hself, hsuppliers⟩ := hdepth n hn
  refine ⟨hself cut, fun p => ?_, fun p hp => ?_⟩
  · rw [plainRateOf_eq, rateOf_eq]
    exact realizedBy_congr fun _ => hself cut
  · rw [plainSuppliedRate_eq, suppliedRate_eq hp]
    exact suppliedBy_congr fun u hu => hsuppliers u hu.lt_size (hp u hu) cut

/-- A mine that supplies two furnaces, which both supply one workshop, which so depends on the mine
twice. -/
def diamond : Arena :=
  ⟨[Stream.fresh (Recipe.every 2 two_pos [] [⟨⟨0, 0⟩, 1⟩]) [] 1 8,
    Stream.fresh (Recipe.every 1 Int.one_pos [⟨⟨0, 0⟩, 1⟩] [⟨⟨1, 0⟩, 1⟩]) [⟨⟨0, 0⟩, 0⟩] 1 8,
    Stream.fresh (Recipe.every 1 Int.one_pos [⟨⟨0, 0⟩, 1⟩] [⟨⟨2, 0⟩, 1⟩]) [⟨⟨0, 0⟩, 0⟩] 1 8,
    Stream.fresh (Recipe.every 1 Int.one_pos [⟨⟨1, 0⟩, 1⟩, ⟨⟨2, 0⟩, 1⟩] [⟨⟨3, 0⟩, 1⟩])
      [⟨⟨1, 0⟩, 1⟩, ⟨⟨2, 0⟩, 2⟩] 1 8]⟩

/-- The mine digs half of what both furnaces take, and the plain definition finds so too. -/
theorem queries_eq_plain_diamond :
    diamond.AcyclicFrom 3 ∧ ∃ depth, ∀ n ≥ depth, ∀ cut,
      ∃ e, plainEfficiency cut diamond n 3 = .ok e ∧ (e == 0.5) = true := by
  have hacyclic : diamond.AcyclicFrom 3 :=
    BindsEarlier.acyclicFrom (a := diamond) (by decide) 3
  have hhalf : (match diamond.efficiency 3 with
      | .ok e => e == 0.5
      | .error _ => false) = true := by
    decide +kernel
  obtain ⟨depth, hdepth⟩ := queries_eq_plain hacyclic
  refine ⟨hacyclic, depth, fun n hn cut => ?_⟩
  rw [(hdepth n hn cut).1]
  cases h : diamond.efficiency 3 with
  | ok e =>
    rw [h] at hhalf
    exact ⟨e, rfl, hhalf⟩
  | error f =>
    rw [h] at hhalf
    cases hhalf

end Conveyor.Arena
