-- SUMMARY: An efficiency that a query gives is a double between zero and one, whatever the streams are bound to.
import Conveyor.Proofs.Double.Sign
import Conveyor.Proofs.Efficiency.Cycles
import Conveyor.Proofs.Efficiency.Drift

/-!
# Range of efficiencies

A query that answers has met no circle, so it has found every efficiency from others that it had found
before. As long as these are values up to one, all rates on the way are ordinary ones, their ratios are
doubles without a sign, infinities among them, and the least of the ratios and of one is a value again. It
does not matter for this which products the slots are for.
-/

namespace Conveyor

open Binary64

namespace Arena

variable {a : Arena} {g : Nat → Except Fault Float} {i : Nat} {s : Stream} {p : Product} {e : Float}

/-! ## One stream -/

theorem leastRatio_mem {xs : List Float} (hne : xs ≠ []) : leastRatio xs ∈ 1.0 :: xs := by
  have hfoldl (x : Float) (ys : List Float) :
      ys.foldl (fun least y => if y < least then y else least) x ∈ x :: ys := by
    induction ys generalizing x with
    | nil => exact List.mem_singleton_self x
    | cons y ys ih =>
      rw [List.foldl_cons]
      have hmem := ih (if y < x then y else x)
      grind
  cases xs with
  | nil => exact absurd rfl hne
  | cons x xs =>
    unfold leastRatio
    dsimp only
    split
    · exact List.mem_cons_self
    · exact List.mem_cons_of_mem _ (hfoldl x xs)

theorem Steady.active (ha : a.Steady) : a.Active := by
  intro s hs
  obtain ⟨i, hi⟩ := List.mem_iff_getElem?.1 hs
  obtain ⟨n, hn⟩ := (ha i s hi).timed
  refine ⟨(ha i s hi).positive, ?_, (ha i s hi).copies⟩
  rw [Rate.isZero, hn.amount]
  rfl

/-- From values up to one comes a value up to one. -/
theorem efficiencyBy_within (ha : a.Steady) (hs : a.stream? i = some s)
    (hg : ∀ u, a.Asks i u → ∀ e, g u = .ok e → ∃ η, Stands e η ∧ η ≤ 1) (h : efficiencyBy g a i s = .ok e) :
    ∃ η, Stands e η ∧ η ≤ 1 := by
  obtain ⟨xs, rfl, _, hsome⟩ := efficiencyBy_eq_ok ha hs h
  cases hxs : xs with
  | nil => exact ⟨0, stands_zero, zero_le_one⟩
  | cons x ys =>
    obtain ⟨η, hη, hone, _⟩ := stands_leastRatio (List.cons_ne_nil x ys) fun z hz => by
      obtain ⟨p, hp, hratio⟩ := hsome z (hxs ▸ hz)
      obtain ⟨_, _, htells⟩ := ratioBy_tells ha hs hp hg hratio
      exact htells.exists_size
    exact ⟨η, hη, hone⟩

theorem addUp_of_none {rate : Nat → Except Fault (Option Rate)} {total F : Rate} {us : List Nat}
    (hnone : ∀ u ∈ us, ∀ r, rate u = .ok r → r = none) (h : addUp rate total us = .ok F) : F = total := by
  induction us generalizing total with
  | nil => exact (Result.pure_eq_ok.1 h).symm
  | cons u us ih =>
    obtain ⟨r, next, hr, hrest, _, ⟨_, rfl⟩ | ⟨ρ, rfl, _⟩⟩ := addUp_cons_eq_ok h
    · exact ih (fun v hv => hnone v (List.mem_cons_of_mem u hv)) hrest
    · cases hnone u List.mem_cons_self _ hr

/-- A product that nobody yields is a ratio of nothing, and there is none below it. -/
theorem efficiencyBy_of_unmade (ha : a.Steady) (hs : a.stream? i = some s)
    (hg : ∀ u, a.Asks i u → ∀ e, g u = .ok e → ∃ η, Stands e η ∧ η ≤ 1) (hp : p ∈ s.recipe.inputProducts)
    (hnobody : ∀ u ∈ s.suppliers, ∀ t, a.stream? u = some t → p ∉ t.recipe.outputs.map Part.product)
    (h : efficiencyBy g a i s = .ok e) : e = 0.0 := by
  obtain ⟨xs, rfl, hall, hsome⟩ := efficiencyBy_eq_ok ha hs h
  obtain ⟨z, hz, hratio⟩ := hall p hp
  have hne := List.ne_nil_of_mem hz
  -- Nothing arrives of the product, so its ratio is zero.
  have hnothing : z = 0.0 := by
    obtain ⟨F, optimal, n, hF, _, hticks, _, hquotient⟩ := ratioBy_ordinary ha hs hp hg hratio
    have hzero : F = Rate.zero := addUp_of_none (fun u hu r hr => by
      obtain ⟨t, outflow, ht, houtflow, ⟨_, hnone⟩ | ⟨hmakes, _⟩⟩ := realizedBy_eq_ok hr
      · exact hnone
      · obtain rfl := Except.ok.inj ((Recipe.flowOf_of_not_mem (hnobody u hu t ht)).symm.trans houtflow)
        cases hmakes) hF
    subst hzero
    exact Rate.ratio_zero hticks hquotient
  subst hnothing
  have htells : ∀ x ∈ xs, Unsigned x ∧ ∃ v, Size x v := by
    intro x hx
    obtain ⟨q, hq, hratio⟩ := hsome x hx
    obtain ⟨_, _, htells⟩ := ratioBy_tells ha hs hq hg hratio
    obtain ⟨F, optimal, n, _, hordinary, hticks, _, hquotient⟩ := ratioBy_ordinary ha hs hq hg hratio
    exact ⟨Rate.unsigned_ratio hordinary hticks hquotient, htells.exists_size⟩
  obtain ⟨η, hη, _, hleast, _⟩ := stands_leastRatio hne fun x hx => (htells x hx).2
  obtain rfl : η = 0 := le_antisymm (WithTop.coe_le_coe.1 (hleast 0.0 hz _ stands_zero.size)) hη.nonneg
  obtain hone | hmem := List.mem_cons.1 (leastRatio_mem hne)
  · rw [hone] at hη
    exact absurd (hη.unique stands_one) zero_ne_one
  · exact (htells _ hmem).1 hη

/-! ## Queries -/

theorem acyclicFrom_of_efficiency (ha : a.Steady) (h : a.efficiency i = .ok e) : a.AcyclicFrom i :=
  acyclicFrom_of_not_meetsCircle ha.active fun hmeets => efficiency_ne_ok ha.active hmeets e h

theorem efficiency_within (ha : a.Steady) (h : a.efficiency i = .ok e) : ∃ η, Stands e η ∧ η ≤ 1 := by
  refine AcyclicFrom.induction (motive := fun i => ∀ e, a.efficiency i = .ok e → ∃ η, Stands e η ∧ η ≤ 1)
    (acyclicFrom_of_efficiency ha h) (fun j hj ih e he => ?_) e h
  cases hs : a.stream? j with
  | none =>
    rw [efficiency_of_none hs] at he
    cases he
  | some s =>
    cases hleaf : s.isLeaf with
    | true =>
      obtain rfl := Except.ok.inj ((efficiency_of_isLeaf hs hleaf).symm.trans he)
      exact ⟨1, stands_one, le_refl 1⟩
    | false =>
      rw [efficiency_of_suppliers hj hs hleaf] at he
      exact efficiencyBy_within ha hs ih he

/-- Where streams cycle every whole number of ticks and all amounts are units of something, an efficiency that
a query gives is a double between zero and one, neither a NaN nor an infinity. Without bindings it is one,
and with bindings zero if none of the suppliers yields some product that the stream consumes. -/
theorem efficiency_between (ha : a.Steady) (hs : a.stream? i = some s) (h : a.efficiency i = .ok e) :
    (0.0 ≤ e ∧ e ≤ 1.0 ∧ ∃ q, Stands e q) ∧ (s.isLeaf = true → e = 1.0) ∧
      (s.isLeaf = false → (∃ p ∈ s.recipe.inputProducts, ∀ u ∈ s.suppliers, ∀ t, a.stream? u = some t →
        p ∉ t.recipe.outputs.map Part.product) → e = 0.0) := by
  refine ⟨?_, fun hleaf => ?_, fun hleaf ⟨p, hp, hnobody⟩ => ?_⟩
  · obtain ⟨η, hη, hone⟩ := efficiency_within ha h
    refine ⟨(le_iff stands_zero.size hη.size).2 ?_, (le_iff hη.size stands_one.size).2 ?_, η, hη⟩
    · exact WithTop.coe_le_coe.2 hη.nonneg
    · exact WithTop.coe_le_coe.2 hone
  · exact (Except.ok.inj ((efficiency_of_isLeaf hs hleaf).symm.trans h)).symm
  · rw [efficiency_of_suppliers (acyclicFrom_of_efficiency ha h) hs hleaf] at h
    exact efficiencyBy_of_unmade ha hs (fun u _ e he => efficiency_within ha he) hp hnobody h

/-- A forge that needs ore and coal, and is bound to a mine for both. The mine gives no coal. -/
def coldForge : Arena :=
  ⟨[Stream.fresh (Recipe.every 3 (by decide) [] [⟨⟨0, 0⟩, 1⟩]) [] 1 8,
    Stream.fresh (Recipe.every 7 (by decide) [⟨⟨0, 0⟩, 1⟩, ⟨⟨1, 0⟩, 2⟩] [⟨⟨2, 0⟩, 1⟩])
      [⟨⟨0, 0⟩, 0⟩, ⟨⟨1, 0⟩, 0⟩] 2 8]⟩

theorem steady_coldForge : coldForge.Steady := by
  intro i s hs
  match i with
  | 0 =>
    obtain rfl := Option.some.inj hs
    exact ⟨⟨3, rfl, rfl⟩, ⟨by decide, by decide⟩, by decide⟩
  | 1 =>
    obtain rfl := Option.some.inj hs
    exact ⟨⟨7, rfl, rfl⟩, ⟨by decide, by decide⟩, by decide⟩
  | _ + 2 => cases hs

/-- The mine runs at its best, and the forge not at all. -/
theorem efficiency_between_coldForge :
    (∃ e, coldForge.efficiency 0 = .ok e ∧ 0.0 ≤ e ∧ e ≤ 1.0 ∧ e = 1.0) ∧
      ∃ e, coldForge.efficiency 1 = .ok e ∧ 0.0 ≤ e ∧ e ≤ 1.0 ∧ e = 0.0 := by
  have hanswers : (coldForge.efficiency 1).isOk = true := by decide +kernel
  obtain ⟨e, hforge⟩ : ∃ e, coldForge.efficiency 1 = .ok e := by
    cases h : coldForge.efficiency 1 with
    | ok e => exact ⟨e, rfl⟩
    | error f =>
      rw [h] at hanswers
      cases hanswers
  have hmine : coldForge.efficiency 0 = .ok 1.0 := efficiency_of_isLeaf rfl rfl
  obtain ⟨hrange₀, hleaf, -⟩ := efficiency_between steady_coldForge rfl hmine
  obtain ⟨hrange₁, -, hbound⟩ := efficiency_between steady_coldForge rfl hforge
  refine ⟨⟨_, hmine, hrange₀.1, hrange₀.2.1, hleaf rfl⟩, _, hforge, hrange₁.1, hrange₁.2.1, hbound rfl ?_⟩
  refine ⟨⟨1, 0⟩, by decide, fun u hu t ht => ?_⟩
  obtain rfl := List.mem_singleton.1 hu
  obtain rfl := Option.some.inj ht
  decide

end Arena

end Conveyor
