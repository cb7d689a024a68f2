-- SUMMARY: A recipe that completes any cycles has a flow of every product that it lists, and of no other.
import Conveyor.Proofs.Clock
import Conveyor.Proofs.Recipe

/-!
# Flows that are not nothing

A product flows through a recipe if some part lists it and the recipe completes any cycles at all. Rates
over one base add up to a rate over that base, so the flow can be computed unless the base is not a number.
-/

namespace Conveyor

theorem Number.pos_of_integer? {a : Number} {n : Int} (ha : a.IsPositive)
    (h : a.integer? = .ok (some n)) : 0 < n := by
  obtain ⟨_, _, h⟩ := Result.bind_eq_ok.1 h
  have hwhole : a.whole? = some n := Result.pure_eq_ok.1 h
  cases a with
  | whole m => exact Option.some.inj hwhole ▸ ha
  | real x =>
    obtain ⟨r, hr, hn⟩ := Option.bind_eq_some_iff.1 hwhole
    have hpos := Binary64.pos_of_fraction? ha hr
    rw [Binary64.Fraction.whole?_eq_some hn] at hpos
    exact pos_of_mul_pos_left hpos (Int.natCast_nonneg _)

namespace Rate

variable {r s t : Rate}

theorem amount_pos_iff : 0 < r.amount ↔ r.isZero = false := by
  have hnonneg := r.amount_nonneg
  simp only [isZero, decide_eq_false_iff_not]
  omega

theorem isZero_times {k : Int} (hr : r.isZero = false) (hk : 0 < k) (h : r.times k = .ok t) :
    t.isZero = false := by
  rw [times, if_neg (Int.ne_of_gt hk)] at h
  rw [← amount_pos_iff, (of_make h).1]
  exact Int.mul_pos (amount_pos_iff.2 hr) hk

/-- A sum is nothing only if what is added is nothing. -/
theorem isZero_add (hs : s.isZero = false) (h : r.add s = .ok t) : t.isZero = false := by
  have hamount := amount_pos_iff.2 hs
  have hnonneg := r.amount_nonneg
  unfold add at h
  rw [hs] at h
  simp only [Bool.false_eq_true, if_false] at h
  split at h
  · exact Except.ok.inj h ▸ hs
  split at h
  · rw [← amount_pos_iff, (of_make h).1]
    omega
  obtain ⟨bases, hbases, h⟩ := Result.bind_eq_ok.1 h
  cases bases with
  | some bases =>
    obtain ⟨m, n⟩ := bases
    obtain ⟨hm, hn⟩ := wholeBases?_eq_ok hbases
    have hm0 := Number.pos_of_integer? r.ticks_pos hm
    have hn0 := Number.pos_of_integer? s.ticks_pos hn
    have hbase : (0 : Int) < Int.lcm m n := Int.natCast_pos.2 (Int.lcm_pos hm0.ne' hn0.ne')
    rw [← amount_pos_iff, (of_make h).1]
    have hleft := Int.mul_nonneg hnonneg (Int.ediv_nonneg hbase.le hm0.le)
    have hright := Int.mul_pos hamount
      (Int.ediv_pos_of_pos_of_dvd hbase hn0.le (Int.dvd_lcm_right m n))
    omega
  | none =>
    obtain ⟨_, _, h⟩ := Result.bind_eq_ok.1 h
    obtain ⟨_, _, h⟩ := Result.bind_eq_ok.1 h
    obtain ⟨_, _, h⟩ := Result.bind_eq_ok.1 h
    rw [← amount_pos_iff, (of_make h).1]
    omega

end Rate

namespace Recipe

variable {r : Recipe} {parts : List Part} {p : Product} {ρ : Rate}

theorem flowOf_of_not_mem (hp : p ∉ parts.map Part.product) : r.flowOf parts p = .ok Rate.zero := by
  rw [flowOf, filter_product_eq_nil hp]
  rfl

/-- Parts that are added to some flow leave some flow. -/
theorem isZero_foldlM (hr : r.rate.isZero = false) (hparts : ∀ part ∈ parts, 0 < part.amount)
    {total : Rate} (htotal : total.isZero = false ∨ parts ≠ [])
    (h : (parts.foldlM (fun total part => do
      let rate ← r.rate.times part.amount
      total.add rate) total) = .ok ρ) : ρ.isZero = false := by
  induction parts generalizing total with
  | nil =>
    obtain rfl := Result.pure_eq_ok.1 h
    exact htotal.resolve_right fun hne => hne rfl
  | cons part parts ih =>
    rw [List.foldlM_cons] at h
    obtain ⟨next, hnext, h⟩ := Result.bind_eq_ok.1 h
    obtain ⟨rate, hrate, hadd⟩ := Result.bind_eq_ok.1 hnext
    have hsome := Rate.isZero_times hr (hparts part List.mem_cons_self) hrate
    exact ih (fun q hq => hparts q (List.mem_cons_of_mem _ hq)) (.inl (Rate.isZero_add hsome hadd)) h

/-- Of a recipe that runs, every product that is listed has a flow. -/
theorem isZero_flowOf (hr : r.rate.isZero = false) (hparts : ∀ part ∈ parts, 0 < part.amount)
    (hp : p ∈ parts.map Part.product) (h : r.flowOf parts p = .ok ρ) : ρ.isZero = false := by
  obtain ⟨part, hpart, rfl⟩ := List.mem_map.1 hp
  have hmem : part ∈ parts.filter (·.product = part.product) :=
    List.mem_filter.2 ⟨hpart, decide_eq_true rfl⟩
  exact isZero_foldlM hr (fun q hq => hparts q (List.mem_filter.1 hq).1)
    (.inr (List.ne_nil_of_mem hmem)) h

/-- Rates over one base that is a number always add up. -/
theorem exists_flowOf (hticks : r.rate.ticks.same r.rate.ticks = true)
    (hparts : ∀ part ∈ parts, 0 < part.amount) (p : Product) : ∃ ρ, r.flowOf parts p = .ok ρ := by
  suffices h : ∀ total : Rate, total.isZero = true ∨ total.ticks = r.rate.ticks →
      ∃ ρ, ((parts.filter (·.product = p)).foldlM (fun total part => do
        let rate ← r.rate.times part.amount
        total.add rate) total) = .ok ρ from h Rate.zero (.inl rfl)
  have hfiltered : ∀ part ∈ parts.filter (·.product = p), 0 < part.amount :=
    fun part hpart => hparts part (List.mem_filter.1 hpart).1
  generalize parts.filter (·.product = p) = filtered at hfiltered
  induction filtered with
  | nil => exact fun total _ => ⟨total, rfl⟩
  | cons part rest ih =>
    intro total htotal
    have hpart := hfiltered part List.mem_cons_self
    have hamount : 0 ≤ r.rate.amount * part.amount := Int.mul_nonneg r.rate.amount_nonneg hpart.le
    let rate : Rate := ⟨r.rate.amount * part.amount, r.rate.ticks, hamount, r.rate.ticks_pos⟩
    have hrate : r.rate.times part.amount = .ok rate := by
      rw [Rate.times, if_neg (Int.ne_of_gt hpart)]
      exact Rate.make_eq_ok rate
    have hadd : ∃ next, total.add rate = .ok next ∧ (next.isZero = true ∨ next.ticks = r.rate.ticks) := by
      unfold Rate.add
      split
      · exact ⟨total, rfl, htotal⟩
      split
      · exact ⟨rate, rfl, .inr rfl⟩
      next hsome =>
        have hbase : total.ticks = rate.ticks := htotal.resolve_left hsome
        rw [hbase, if_pos hticks]
        let sum : Rate := ⟨total.amount + rate.amount, rate.ticks,
          Int.add_nonneg total.amount_nonneg hamount, rate.ticks_pos⟩
        exact ⟨sum, Rate.make_eq_ok sum, .inr rfl⟩
    obtain ⟨next, hnext, hbase⟩ := hadd
    obtain ⟨ρ, hρ⟩ := ih (fun q hq => hfiltered q (List.mem_cons_of_mem _ hq)) next hbase
    refine ⟨ρ, ?_⟩
    rw [List.foldlM_cons, hrate]
    change (total.add rate >>= _) = _
    rw [hnext]
    exact hρ

end Recipe

end Conveyor
