-- SUMMARY: The efficiency that a query finds is close to what the supplies allow in exact arithmetic.
import Conveyor.Proofs.Efficiency.Formula
import Conveyor.Proofs.Efficiency.Supply
import Conveyor.Proofs.Rate.Shortage

/-!
# Drift of efficiencies

An efficiency is computed from rates that were stretched and added on doubles, by efficiencies that
were computed before it. Each stream on the way adds the same few roundings for each of its suppliers,
so the drift multiplies along a supply chain. What is lost when a tick base leaves the doubles can only
make an efficiency smaller.
-/

namespace Conveyor

open Binary64

namespace Arena

/-! ## The least ratio -/

theorem foldl_least {x : Float} {v : WithTop ℚ} {xs : List Float} (hx : Size x v)
    (hxs : ∀ y ∈ xs, ∃ w, Size y w) :
    ∃ w, Size (xs.foldl (fun least y => if y < least then y else least) x) w ∧ w ≤ v ∧
      (∀ y ∈ xs, ∀ u, Size y u → w ≤ u) ∧ (w = v ∨ ∃ y ∈ xs, Size y w) := by
  induction xs generalizing x v with
  | nil => exact ⟨v, hx, le_refl v, fun _ hy => absurd hy List.not_mem_nil, .inl rfl⟩
  | cons y xs ih =>
    obtain ⟨u, hu⟩ := hxs y List.mem_cons_self
    have hrest := fun z hz => hxs z (List.mem_cons_of_mem y hz)
    rw [List.foldl_cons]
    split
    next hlt =>
      have huv := (lt_iff hu hx).1 hlt
      obtain ⟨w, hw, hle, hall, hsome⟩ := ih hu hrest
      refine ⟨w, hw, hle.trans huv.le, ?_, .inr ?_⟩
      · rintro z hz t ht
        rcases List.mem_cons.1 hz with rfl | hz
        · exact ht.unique hu ▸ hle
        · exact hall z hz t ht
      · rcases hsome with rfl | ⟨z, hz, hzw⟩
        · exact ⟨y, List.mem_cons_self, hu⟩
        · exact ⟨z, List.mem_cons_of_mem y hz, hzw⟩
    next hnot =>
      have hvu : v ≤ u := not_lt.1 fun h => hnot ((lt_iff hu hx).2 h)
      obtain ⟨w, hw, hle, hall, hsome⟩ := ih hx hrest
      refine ⟨w, hw, hle, ?_, hsome.imp_right fun ⟨z, hz, hzw⟩ => ⟨z, List.mem_cons_of_mem y hz, hzw⟩⟩
      rintro z hz t ht
      rcases List.mem_cons.1 hz with rfl | hz
      · exact ht.unique hu ▸ hle.trans hvu
      · exact hall z hz t ht

/-- The least of some ratios is a value up to one, none of them is below it, and it is one of them if
it is below one. -/
theorem stands_leastRatio {xs : List Float} (hne : xs ≠ []) (hxs : ∀ x ∈ xs, ∃ v, Size x v) :
    ∃ η, Stands (leastRatio xs) η ∧ η ≤ 1 ∧ (∀ x ∈ xs, ∀ v, Size x v → (η : WithTop ℚ) ≤ v) ∧
      (η < 1 → ∃ x ∈ xs, Stands x η) := by
  cases xs with
  | nil => exact absurd rfl hne
  | cons x xs =>
    obtain ⟨v, hv⟩ := hxs x List.mem_cons_self
    obtain ⟨w, hw, hwv, hall, hsome⟩ := foldl_least hv fun y hy => hxs y (List.mem_cons_of_mem x hy)
    have hleast : ∀ y ∈ x :: xs, ∀ u, Size y u → w ≤ u := by
      rintro y hy u hu
      rcases List.mem_cons.1 hy with rfl | hy
      · exact hu.unique hv ▸ hwv
      · exact hall y hy u hu
    unfold leastRatio
    simp only
    split
    next hlt =>
      have hone := (lt_iff stands_one.size hw).1 hlt
      exact ⟨1, stands_one, le_refl 1, fun y hy u hu => hone.le.trans (hleast y hy u hu),
        fun h => absurd h (lt_irrefl 1)⟩
    next hnot =>
      have hone : w ≤ (1 : ℚ) := not_lt.1 fun h => hnot ((lt_iff stands_one.size hw).2 h)
      obtain ⟨η, rfl⟩ := WithTop.ne_top_iff_exists.1 (ne_top_of_le_ne_top WithTop.coe_ne_top hone)
      refine ⟨η, hw, WithTop.coe_le_coe.1 hone, hleast, fun _ => ?_⟩
      rcases hsome with heq | ⟨y, hy, hyw⟩
      · rw [← heq] at hv
        exact ⟨x, List.mem_cons_self, hv⟩
      · exact ⟨y, List.mem_cons_of_mem x hy, hyw⟩

/-! ## What one supplier delivers -/

variable {a : Arena} {g : Nat → Except Fault Float} {i u : Nat} {s t : Stream} {p : Product}
  {ρ : Rate} {e : Float} {x η : ℚ}

theorem realizedBy_eq_ok {r : Option Rate} (h : realizedBy g a u p = .ok r) :
    ∃ t outflow, a.stream? u = some t ∧ t.recipe.outflowOf p = .ok outflow ∧
      (outflow.isZero = true ∧ r = none ∨
        outflow.isZero = false ∧ ∃ e stretched ρ, g u = .ok e ∧ outflow.stretch e = .ok stretched ∧
          stretched.times t.mult = .ok ρ ∧ r = some ρ) := by
  obtain ⟨t, ht, h⟩ := Result.bind_eq_ok.1 h
  obtain ⟨outflow, houtflow, h⟩ := Result.bind_eq_ok.1 h
  refine ⟨t, outflow, stream_eq_ok ht, houtflow, ?_⟩
  cases hzero : outflow.isZero with
  | true =>
    rw [hzero] at h
    exact .inl ⟨rfl, (Result.pure_eq_ok.1 h).symm⟩
  | false =>
    rw [hzero] at h
    obtain ⟨e, he, h⟩ := Result.bind_eq_ok.1 h
    obtain ⟨stretched, hstretched, h⟩ := Result.bind_eq_ok.1 h
    obtain ⟨ρ, hρ, h⟩ := Result.bind_eq_ok.1 h
    exact .inr ⟨rfl, e, stretched, ρ, he, hstretched, hρ, (Result.pure_eq_ok.1 h).symm⟩

/-- What one copy gives as a rate is what it gives exactly. -/
theorem outflow_eq (ha : a.Steady) (ht : a.stream? u = some t) {outflow : Rate}
    (h : t.recipe.outflowOf p = .ok outflow) :
    outflow.flow = a.output u p ∧ ∃ n, outflow.ticks = .whole n := by
  have hsteady := ha u t ht
  obtain ⟨n, hn⟩ := hsteady.timed
  obtain ⟨ρ, hρ, hrate⟩ := Recipe.outflowOf_eq_ok hn hsteady.positive p
  obtain rfl := Except.ok.inj (h.symm.trans hρ)
  refine ⟨?_, _, hrate.ticks⟩
  rw [output_eq ht, Stream.output, Stream.period, hn.ticks, hrate.flow_eq]
  rfl

theorem output_pos (ha : a.Steady) (ht : a.stream? u = some t) {outflow : Rate}
    (h : t.recipe.outflowOf p = .ok outflow) (hsome : outflow.isZero = false) : 0 < a.output u p := by
  obtain ⟨hflow, n, hticks⟩ := outflow_eq ha ht h
  rw [← hflow, Rate.flow_of_whole hticks]
  exact div_pos (one_pos.trans_le (Rate.amount_pos hsome)) (Int.cast_pos.2 (Rate.whole_pos hticks))

/-- A supplier that gives nothing of a product delivers no rate of it, and only then. -/
theorem output_eq_zero_of_none (ha : a.Steady) (h : realizedBy g a u p = .ok none) :
    a.output u p = 0 := by
  obtain ⟨t, outflow, ht, houtflow, ⟨hzero, _⟩ | ⟨_, _, _, _, _, _, _, hnone⟩⟩ := realizedBy_eq_ok h
  · rw [← (outflow_eq ha ht houtflow).1]
    exact Rate.flow_of_isZero hzero
  · cases hnone

/-- An efficiency is a value up to one. A supplier that is all but stopped delivers nothing that counts,
any other drifts by two roundings from what its copies give at that efficiency. -/
theorem realizedBy_within (ha : a.Steady) (he : ∀ e, g u = .ok e → ∃ η, Stands e η ∧ η ≤ 1)
    (h : realizedBy g a u p = .ok (some ρ)) :
    ρ.Ordinary ∧ 0 < a.output u p ∧ ∃ e η, g u = .ok e ∧ Stands e η ∧
      (η ≤ 2 * tiny → ρ.flow = 0) ∧ (Within 2 ρ.flow (a.output u p * (η * a.copies u)) ∨ ρ.Stops) := by
  obtain ⟨t, outflow, ht, houtflow, ⟨_, hnone⟩ | ⟨hzero, e, stretched, ρ', hg, hstretched, htimes,
    hsome⟩⟩ := realizedBy_eq_ok h
  · cases hnone
  obtain rfl := Option.some.inj hsome
  obtain ⟨η, hη, hone⟩ := he e hg
  obtain ⟨hflow, n, hticks⟩ := outflow_eq ha ht houtflow
  have hmult := (ha u t ht).one_le_mult
  have hcopies : (0 : ℚ) ≤ t.mult := zero_le_one.trans hmult
  obtain ⟨hordinary, hsmall, hwithin⟩ := Rate.stretch_within hticks hη hone hstretched
  have htotal := Rate.flow_times htimes
  refine ⟨hordinary.times htimes, output_pos ha ht houtflow hzero, e, η, hg, hη, fun hle => ?_, ?_⟩
  · rw [htotal, hsmall hle, zero_mul]
  · refine hwithin.imp (fun h => ?_) fun h => h.times (Int.ne_of_gt (ha u t ht).copies) htimes
    rw [htotal, ← hflow, copies_eq ht, ← mul_assoc]
    exact h.mul_const hcopies

/-! ## What the suppliers deliver together -/

/-- Some rates, as far as there are any, added to a total one by one. -/
def addUp (rate : Nat → Except Fault (Option Rate)) (total : Rate) (us : List Nat) :
    Except Fault Rate :=
  us.foldlM (fun total u => do
    match ← rate u with
    | some ρ => total.add ρ
    | none => return total) total

theorem suppliedBy_eq (hs : a.stream? i = some s) :
    suppliedBy g a i p = addUp (fun u => realizedBy g a u p) Rate.zero s.suppliers := by
  have hstream : a.stream i = .ok s := by
    unfold stream
    rw [hs]
  unfold suppliedBy
  rw [hstream]
  rfl

variable {rate : Nat → Except Fault (Option Rate)} {total F : Rate} {us : List Nat} {f : Nat → ℚ}

theorem addUp_cons_eq_ok (h : addUp rate total (u :: us) = .ok F) :
    ∃ r next, rate u = .ok r ∧ addUp rate next us = .ok F ∧
      addUp rate total [u] = .ok next ∧
      (r = none ∧ next = total ∨ ∃ ρ, r = some ρ ∧ total.add ρ = .ok next) := by
  unfold addUp at h
  rw [List.foldlM_cons] at h
  obtain ⟨next, hnext, h⟩ := Result.bind_eq_ok.1 h
  obtain ⟨r, hr, hstep⟩ := Result.bind_eq_ok.1 hnext
  refine ⟨r, next, hr, h, ?_, ?_⟩
  · unfold addUp
    rw [List.foldlM_cons, hnext]
    rfl
  · cases r with
    | none => exact .inl ⟨rfl, (Result.pure_eq_ok.1 hstep).symm⟩
    | some ρ => exact .inr ⟨ρ, rfl, hstep⟩

theorem addUp_cons {next : Rate} (hu : addUp rate total [u] = .ok next)
    (h : addUp rate next us = .ok F) : addUp rate total (u :: us) = .ok F := by
  unfold addUp at hu h ⊢
  rw [List.foldlM_cons] at hu ⊢
  obtain ⟨_, hnext, hu⟩ := Result.bind_eq_ok.1 hu
  obtain rfl := Result.pure_eq_ok.1 hu
  rw [hnext]
  exact h

theorem sum_map_nonneg (hf : ∀ u ∈ us, 0 ≤ f u) : 0 ≤ (us.map f).sum :=
  List.sum_nonneg (List.forall_mem_map.2 hf)

theorem addUp_ordinary (htotal : total.Ordinary)
    (hrate : ∀ u ∈ us, ∀ ρ, rate u = .ok (some ρ) → ρ.Ordinary) (h : addUp rate total us = .ok F) :
    F.Ordinary := by
  induction us generalizing total with
  | nil =>
    obtain rfl := Result.pure_eq_ok.1 h
    exact htotal
  | cons u us ih =>
    obtain ⟨r, next, hr, hrest, _, hstep⟩ := addUp_cons_eq_ok h
    refine ih ?_ (fun v hv => hrate v (List.mem_cons_of_mem u hv)) hrest
    rcases hstep with ⟨_, rfl⟩ | ⟨ρ, rfl, hadd⟩
    · exact htotal
    · exact (Rate.add_within htotal (hrate u List.mem_cons_self ρ hr) hadd).1

/-- Each addition drifts by five roundings, or loses all that was added. -/
theorem addUp_le (htotal : total.Ordinary) (hf : ∀ u ∈ us, 0 ≤ f u)
    (hrate : ∀ u ∈ us, ∀ ρ, rate u = .ok (some ρ) → ρ.Ordinary ∧ ρ.flow ≤ f u)
    (h : addUp rate total us = .ok F) :
    F.flow ≤ (total.flow + (us.map f).sum) * slack ^ (5 * us.length) := by
  induction us generalizing total with
  | nil =>
    obtain rfl := Result.pure_eq_ok.1 h
    simp
  | cons u us ih =>
    obtain ⟨r, next, hr, hrest, hone, hstep⟩ := addUp_cons_eq_ok h
    have hfu := hf u List.mem_cons_self
    have hordinary := addUp_ordinary htotal
      (fun v hv ρ hρ => (hrate v (List.mem_of_mem_take (i := 1) hv) ρ hρ).1) hone
    have hnext : next.flow ≤ (total.flow + f u) * slack ^ 5 := by
      rcases hstep with ⟨_, rfl⟩ | ⟨ρ, rfl, hadd⟩
      · refine (le_add_of_nonneg_right hfu).trans ?_
        exact le_mul_of_one_le_right (add_nonneg htotal.flow_nonneg hfu) (one_le_slack_pow 5)
      · obtain ⟨hρ, hle⟩ := hrate u List.mem_cons_self ρ hr
        rcases (Rate.add_within htotal hρ hadd).2 with hwithin | hstops
        · exact hwithin.1.trans (by gcongr; exact (slack_pow_pos 5).le)
        · rw [hstops.flow_eq]
          exact mul_nonneg (add_nonneg htotal.flow_nonneg hfu) (slack_pow_pos 5).le
    have hsum := sum_map_nonneg fun v hv => hf v (List.mem_cons_of_mem u hv)
    rw [List.map_cons, List.sum_cons, List.length_cons]
    calc F.flow ≤ (next.flow + (us.map f).sum) * slack ^ (5 * us.length) :=
          ih hordinary (fun v hv => hf v (List.mem_cons_of_mem u hv))
            (fun v hv => hrate v (List.mem_cons_of_mem u hv)) hrest
      _ ≤ ((total.flow + f u) * slack ^ 5 + (us.map f).sum * slack ^ 5) * slack ^ (5 * us.length) :=
          mul_le_mul_of_nonneg_right
            (add_le_add hnext (le_mul_of_one_le_right hsum (one_le_slack_pow 5))) (slack_pow_pos _).le
      _ = (total.flow + (f u + (us.map f).sum)) * slack ^ (5 * (us.length + 1)) := by
          rw [Nat.mul_succ, pow_add]
          ring

/-- As long as no base leaves the doubles, nothing is lost on the way. -/
theorem le_addUp (htotal : total.Ordinary) (hf : ∀ u ∈ us, 0 ≤ f u)
    (hnone : ∀ u ∈ us, rate u = .ok none → f u = 0)
    (hrate : ∀ u ∈ us, ∀ ρ, rate u = .ok (some ρ) → ρ.Ordinary ∧ f u ≤ ρ.flow)
    (hstays : ∀ vs G, vs <+: us → addUp rate total vs = .ok G → ¬ G.Stops)
    (h : addUp rate total us = .ok F) :
    total.flow + (us.map f).sum ≤ F.flow * slack ^ (5 * us.length) := by
  induction us generalizing total with
  | nil =>
    obtain rfl := Result.pure_eq_ok.1 h
    simp
  | cons u us ih =>
    obtain ⟨r, next, hr, hrest, hone, hstep⟩ := addUp_cons_eq_ok h
    have hordinary := addUp_ordinary htotal
      (fun v hv ρ hρ => (hrate v (List.mem_of_mem_take (i := 1) hv) ρ hρ).1) hone
    have hnext : total.flow + f u ≤ next.flow * slack ^ 5 := by
      rcases hstep with ⟨rfl, rfl⟩ | ⟨ρ, rfl, hadd⟩
      · rw [hnone u List.mem_cons_self hr, add_zero]
        exact le_mul_of_one_le_right htotal.flow_nonneg (one_le_slack_pow 5)
      · obtain ⟨hρ, hle⟩ := hrate u List.mem_cons_self ρ hr
        have hwithin := (Rate.add_within htotal hρ hadd).2.resolve_right
          (hstays [u] next ⟨us, rfl⟩ hone)
        exact (add_le_add_right hle _).trans hwithin.2
    have hsum := sum_map_nonneg fun v hv => hf v (List.mem_cons_of_mem u hv)
    rw [List.map_cons, List.sum_cons, List.length_cons]
    calc total.flow + (f u + (us.map f).sum)
        ≤ next.flow * slack ^ 5 + (us.map f).sum * slack ^ 5 := by
          rw [← add_assoc]
          exact add_le_add hnext (le_mul_of_one_le_right hsum (one_le_slack_pow 5))
      _ ≤ F.flow * slack ^ (5 * us.length) * slack ^ 5 := by
          rw [← add_mul]
          refine mul_le_mul_of_nonneg_right ?_ (slack_pow_pos 5).le
          exact ih hordinary (fun v hv => hf v (List.mem_cons_of_mem u hv))
            (fun v hv => hnone v (List.mem_cons_of_mem u hv))
            (fun v hv => hrate v (List.mem_cons_of_mem u hv))
            (fun vs G hvs hG => hstays (u :: vs) G (List.cons_prefix_cons.2 ⟨rfl, hvs⟩)
              (addUp_cons hone hG)) hrest
      _ = F.flow * slack ^ (5 * (us.length + 1)) := by
          rw [Nat.mul_succ, pow_add]
          ring

/-! ## The efficiency of one stream -/

/-- The rate at which all copies of a stream would take a product. -/
def optimalOf (s : Stream) (p : Product) : Except Fault Rate := do
  let inflow ← s.recipe.inflowOf p
  inflow.times s.mult

theorem optimalOf_eq_ok {optimal : Rate} (hs : s.Steady) (h : optimalOf s p = .ok optimal) :
    optimal.flow = s.demand p * s.mult ∧ ∃ n, optimal.ticks = .whole n := by
  obtain ⟨n, hn⟩ := hs.timed
  obtain ⟨inflow, hinflow, h⟩ := Result.bind_eq_ok.1 h
  obtain ⟨ρ, hρ, hrate⟩ := Recipe.inflowOf_eq_ok hn hs.positive p
  obtain rfl := Except.ok.inj (hinflow.symm.trans hρ)
  refine ⟨?_, ?_⟩
  · rw [Rate.flow_times h, hrate.flow_eq, Stream.demand, Stream.period, hn.ticks]
    rfl
  · rw [Rate.times, if_neg (Int.ne_of_gt hs.copies)] at h
    exact ⟨_, (Rate.of_make h).2.trans hrate.ticks⟩

/-- A ratio is there for every input product: of all that arrives to what all copies would take. -/
theorem ratioBy_eq_ok {r : Option Float} (ha : a.Steady) (hs : a.stream? i = some s)
    (hp : p ∈ s.recipe.inputProducts) (h : ratioBy g a i s p = .ok r) :
    ∃ optimal F z, optimalOf s p = .ok optimal ∧
      addUp (fun u => realizedBy g a u p) Rate.zero s.suppliers = .ok F ∧
      F.ratio optimal = .ok z ∧ r = some z := by
  have hsteady := ha i s hs
  obtain ⟨inflow, hinflow, h⟩ := Result.bind_eq_ok.1 h
  obtain ⟨optimal, htimes, h⟩ := Result.bind_eq_ok.1 h
  have hoptimal : optimalOf s p = .ok optimal := Result.bind_eq_ok.2 ⟨inflow, hinflow, htimes⟩
  have hpos : 0 < optimal.flow := by
    rw [(optimalOf_eq_ok hsteady hoptimal).1]
    exact mul_pos (hsteady.demand_pos hp) (one_pos.trans_le hsteady.one_le_mult)
  cases hzero : optimal.isZero with
  | true => exact absurd (Rate.flow_of_isZero hzero) hpos.ne'
  | false =>
    rw [hzero] at h
    obtain ⟨F, hF, h⟩ := Result.bind_eq_ok.1 h
    obtain ⟨z, hz, h⟩ := Result.bind_eq_ok.1 h
    exact ⟨optimal, F, z, hoptimal, suppliedBy_eq hs ▸ hF, hz, (Result.pure_eq_ok.1 h).symm⟩

/-- The efficiency of a stream with bindings is the least of the ratios of its input products. -/
theorem efficiencyBy_eq_ok (ha : a.Steady) (hs : a.stream? i = some s)
    (h : efficiencyBy g a i s = .ok e) :
    ∃ xs, e = leastRatio xs ∧
      (∀ p ∈ s.recipe.inputProducts, ∃ z ∈ xs, ratioBy g a i s p = .ok (some z)) ∧
      ∀ z ∈ xs, ∃ p ∈ s.recipe.inputProducts, ratioBy g a i s p = .ok (some z) := by
  obtain ⟨ratios, hratios, h⟩ := Result.bind_eq_ok.1 h
  refine ⟨ratios.filterMap id, (Result.pure_eq_ok.1 h).symm, fun p hp => ?_, fun z hz => ?_⟩
  · obtain ⟨r, hr, hratio⟩ := Result.exists_mem_of_mapM hratios hp
    obtain ⟨_, _, z, _, _, _, rfl⟩ := ratioBy_eq_ok ha hs hp hratio
    exact ⟨z, List.mem_filterMap.2 ⟨some z, hr, rfl⟩, hratio⟩
  · obtain ⟨r, hr, hid⟩ := List.mem_filterMap.1 hz
    obtain rfl : r = some z := hid
    exact Result.exists_of_mem_mapM hratios hr

/-- If the efficiencies that a stream asks for are values up to one, what arrives is a rate like any other. -/
theorem ratioBy_ordinary {z : Float} (ha : a.Steady) (hs : a.stream? i = some s) (hp : p ∈ s.recipe.inputProducts)
    (hg : ∀ u, a.Asks i u → ∀ e, g u = .ok e → ∃ η, Stands e η ∧ η ≤ 1)
    (hz : ratioBy g a i s p = .ok (some z)) :
    ∃ F optimal n, addUp (fun u => realizedBy g a u p) Rate.zero s.suppliers = .ok F ∧ F.Ordinary ∧
      optimal.ticks = .whole n ∧ optimal.flow = s.demand p * s.mult ∧ F.ratio optimal = .ok z := by
  obtain ⟨optimal, F, _, hoptimal, hF, hratio, heq⟩ := ratioBy_eq_ok ha hs hp hz
  obtain rfl := Option.some.inj heq
  obtain ⟨hflow, n, hticks⟩ := optimalOf_eq_ok (ha i s hs) hoptimal
  have hsome : optimal.isZero = false := Bool.eq_false_iff.2 fun hzero => by
    have hpos := mul_pos ((ha i s hs).demand_pos hp) (one_pos.trans_le (ha i s hs).one_le_mult)
    rw [← hflow, Rate.flow_of_isZero hzero] at hpos
    exact lt_irrefl 0 hpos
  obtain ⟨inflow, hinflow, htimes⟩ := Result.bind_eq_ok.1 hoptimal
  refine ⟨F, optimal, n, hF, addUp_ordinary Rate.ordinary_zero (fun u hu ρ hρ => ?_) hF, hticks, hflow, hratio⟩
  obtain ⟨t, outflow, ht, houtflow, ⟨_, hnone⟩ | ⟨hmakes, _⟩⟩ := realizedBy_eq_ok hρ
  · cases hnone
  · have hasks : a.Asks i u := ⟨s, hs, p, hp, ⟨inflow, optimal, hinflow, htimes, hsome⟩, ⟨s, hs, hu⟩,
      t, ht, outflow, houtflow, hmakes⟩
    exact (realizedBy_within ha (hg u hasks) hρ).1

theorem ratioBy_tells {z : Float} (ha : a.Steady) (hs : a.stream? i = some s) (hp : p ∈ s.recipe.inputProducts)
    (hg : ∀ u, a.Asks i u → ∀ e, g u = .ok e → ∃ η, Stands e η ∧ η ≤ 1)
    (hz : ratioBy g a i s p = .ok (some z)) :
    ∃ F, addUp (fun u => realizedBy g a u p) Rate.zero s.suppliers = .ok F ∧
      Tells 4 z (F.flow / (s.demand p * s.mult)) := by
  obtain ⟨F, optimal, n, hF, hordinary, hticks, hflow, hratio⟩ := ratioBy_ordinary ha hs hp hg hz
  rw [← hflow]
  exact ⟨F, hF, (Rate.ratio_tells hordinary hticks hratio).2⟩

/-- The efficiency is a value up to one. For every input product it is hardly more than the ratio of what
arrives, and for some it is hardly less if it is below one. -/
theorem efficiencyBy_ratios (ha : a.Built) (hs : a.stream? i = some s) (hleaf : s.isLeaf = false)
    (hg : ∀ u, a.Asks i u → ∀ e, g u = .ok e → ∃ η, Stands e η ∧ η ≤ 1)
    (h : efficiencyBy g a i s = .ok e) :
    ∃ η, Stands e η ∧ η ≤ 1 ∧
      (∀ p ∈ s.recipe.inputProducts, ∃ F,
        addUp (fun u => realizedBy g a u p) Rate.zero s.suppliers = .ok F ∧
        (η ≤ 2 * tiny ∨ η * s.mult * s.demand p ≤ F.flow * slack ^ 4)) ∧
      (η < 1 → ∃ p ∈ s.recipe.inputProducts, ∃ F,
        addUp (fun u => realizedBy g a u p) Rate.zero s.suppliers = .ok F ∧
        F.flow ≤ max η (2 * tiny) * s.mult * s.demand p * slack ^ 4) := by
  have hbuilt := ha.stream i s hs
  obtain ⟨xs, rfl, hall, hsome⟩ := efficiencyBy_eq_ok ha.steady hs h
  have hpos {p : Product} (hp : p ∈ s.recipe.inputProducts) : 0 < s.demand p * s.mult :=
    mul_pos (hbuilt.steady.demand_pos hp) (one_pos.trans_le hbuilt.steady.one_le_mult)
  obtain ⟨p₀, hp₀⟩ := hbuilt.exists_inputProduct hleaf
  obtain ⟨z₀, hz₀, _⟩ := hall p₀ hp₀
  obtain ⟨η, hη, hone, hleast, hmet⟩ := stands_leastRatio (List.ne_nil_of_mem hz₀) fun z hz => by
    obtain ⟨p, hp, hratio⟩ := hsome z hz
    obtain ⟨F, _, htell⟩ := ratioBy_tells ha.steady hs hp hg hratio
    exact htell.exists_size
  refine ⟨η, hη, hone, fun p hp => ?_, fun hless => ?_⟩
  · obtain ⟨z, hz, hratio⟩ := hall p hp
    obtain ⟨F, hF, htell⟩ := ratioBy_tells ha.steady hs hp hg hratio
    obtain ⟨v, hv⟩ := htell.exists_size
    refine ⟨F, hF, (htell.upper hv hone (hleast z hz v hv)).imp_right fun hle => ?_⟩
    rw [div_mul_eq_mul_div, le_div_iff₀ (hpos hp)] at hle
    rwa [mul_assoc, mul_comm (s.mult : ℚ)]
  · obtain ⟨z, hz, hstands⟩ := hmet hless
    obtain ⟨p, hp, hratio⟩ := hsome z hz
    obtain ⟨F, hF, htell⟩ := ratioBy_tells ha.steady hs hp hg hratio
    refine ⟨p, hp, F, hF, ?_⟩
    have hle := htell.lower hstands hless
    rw [div_le_iff₀ (hpos hp)] at hle
    refine hle.trans_eq ?_
    ring

/-! ## No efficiency is far too large -/

/-- The value of an efficiency is at most one, and means no more copies than `f` of so many, unless it
is all but nothing. -/
def AtMost (f copies : ℚ) (e : Float) : Prop :=
  ∃ η, Stands e η ∧ η ≤ 1 ∧ (η ≤ 2 * tiny ∨ η * copies ≤ f)

theorem AtMost.mono {f f' c : ℚ} (h : AtMost f c e) (hle : f ≤ f') : AtMost f' c e := by
  obtain ⟨η, hη, hone, hbound⟩ := h
  exact ⟨η, hη, hone, hbound.imp_right fun h => h.trans hle⟩

theorem supplied_le (ha : a.Built) (hf : ∀ u ∈ s.suppliers, 0 ≤ f u)
    (hg : ∀ u ∈ s.suppliers, ∀ e, g u = .ok e → AtMost (f u) (a.copies u) e)
    (hF : addUp (fun u => realizedBy g a u p) Rate.zero s.suppliers = .ok F) :
    F.flow ≤ a.supply f s p * slack ^ (5 * s.suppliers.length + 2) := by
  have hdelivered : ∀ u ∈ s.suppliers, 0 ≤ a.output u p * f u * slack ^ 2 := fun u hu =>
    mul_nonneg (mul_nonneg (output_nonneg ha u p) (hf u hu)) (slack_pow_pos 2).le
  have hrate : ∀ u ∈ s.suppliers, ∀ ρ, realizedBy g a u p = .ok (some ρ) →
      ρ.Ordinary ∧ ρ.flow ≤ a.output u p * f u * slack ^ 2 := by
    intro u hu ρ hρ
    have hvalue := fun e he => (hg u hu e he).imp fun η h => And.intro h.1 h.2.1
    obtain ⟨hordinary, _, e, η, he, hη, hsmall, hwithin⟩ := realizedBy_within ha.steady hvalue hρ
    refine ⟨hordinary, ?_⟩
    obtain ⟨η', hη', _, hle⟩ := hg u hu e he
    obtain rfl := hη.unique hη'
    rcases hle with htiny | hle
    · rw [hsmall htiny]
      exact hdelivered u hu
    · rcases hwithin with hwithin | hstops
      · refine hwithin.1.trans (mul_le_mul_of_nonneg_right ?_ (slack_pow_pos 2).le)
        exact mul_le_mul_of_nonneg_left hle (output_nonneg ha u p)
      · rw [hstops.flow_eq]
        exact hdelivered u hu
  refine (addUp_le Rate.ordinary_zero hdelivered hrate hF).trans_eq ?_
  have hsum : (s.suppliers.map fun u => a.output u p * f u * slack ^ 2).sum =
      a.supply f s p * slack ^ 2 := List.sum_map_mul_right _ _ _
  rw [hsum, Rate.flow_zero, zero_add, pow_add]
  ring

/-- How far one link of a supply chain lets an efficiency drift, in an arena of `n` streams. -/
def drift (n : Nat) : ℚ := slack ^ (5 * n + 6)

theorem one_le_drift (n : Nat) : 1 ≤ drift n := one_le_slack_pow _

theorem drift_pos (n : Nat) : 0 < drift n := slack_pow_pos _

theorem slack_pow_le_drift {k n : Nat} (h : k ≤ n) : slack ^ (5 * k + 6) ≤ drift n :=
  pow_le_pow_right₀ one_le_slack (by omega)

theorem nodup_eraseDups (us : List Nat) : us.eraseDups.Nodup := by
  induction hn : us.length using Nat.strong_induction_on generalizing us with
  | _ n ih =>
  subst hn
  cases us with
  | nil => exact List.nodup_nil
  | cons u us =>
    rw [List.eraseDups_cons, List.nodup_cons]
    refine ⟨fun hu => ?_, ih _ (Nat.lt_succ_of_le (List.length_filter_le _ us)) _ rfl⟩
    simpa using (List.mem_filter.1 (List.mem_eraseDups.1 hu)).2

theorem length_suppliers_le (ha : a.BindsEarlier) (hs : a.stream? i = some s) :
    s.suppliers.length ≤ a.size := by
  have hsubset : s.suppliers ⊆ List.range a.size := fun u hu => by
    have hi : i < a.size := (List.getElem?_eq_some_iff.1 hs).1
    exact List.mem_range.2 (Nat.lt_trans (ha.lt (supplies_of_mem hs hu)) hi)
  have hnodup : s.suppliers.Nodup := nodup_eraseDups _
  simpa using (List.subperm_of_subset hnodup hsubset).length_le

theorem formula_eq_ok (h : a.formula i = .ok e) : ∃ s, a.stream? i = some s := by
  cases hs : a.stream? i with
  | none =>
    rw [formula, hs] at h
    cases h
  | some s => exact ⟨s, rfl⟩

/-- Where the suppliers' efficiencies have drifted over `d` links, what arrives has drifted over one more. -/
theorem supplied_le_drift (ha : a.Built) (hs : a.stream? i = some s)
    (hg : ∀ u ∈ s.suppliers, ∀ e, g u = .ok e →
      AtMost (a.running u * drift a.size ^ d) (a.copies u) e)
    (hF : addUp (fun u => realizedBy g a u p) Rate.zero s.suppliers = .ok F) :
    F.flow * slack ^ 4 ≤ a.supply a.running s p * drift a.size ^ (d + 1) := by
  have hdpos := pow_pos (drift_pos a.size) d
  have hsupply := supply_nonneg (p := p) ha fun u (_ : u ∈ s.suppliers) => running_nonneg ha u
  have hle := supplied_le ha (fun u _ => mul_nonneg (running_nonneg ha u) hdpos.le) hg hF
  calc F.flow * slack ^ 4
      ≤ a.supply (fun u => a.running u * drift a.size ^ d) s p *
          slack ^ (5 * s.suppliers.length + 2) * slack ^ 4 :=
        mul_le_mul_of_nonneg_right hle (slack_pow_pos 4).le
    _ = a.supply a.running s p * (drift a.size ^ d * slack ^ (5 * s.suppliers.length + 6)) := by
      rw [supply_mul]
      ring
    _ ≤ a.supply a.running s p * (drift a.size ^ d * drift a.size) := by
      refine mul_le_mul_of_nonneg_left (mul_le_mul_of_nonneg_left ?_ hdpos.le) hsupply
      exact slack_pow_le_drift (length_suppliers_le ha.bindsEarlier hs)
    _ = a.supply a.running s p * drift a.size ^ (d + 1) := by rw [pow_succ]

theorem atMost_leaf (ha : a.Built) (hs : a.stream? i = some s) (hleaf : s.isLeaf = true) :
    AtMost (a.running i * drift a.size ^ d) (a.copies i) 1 := by
  have hrunning : (s.mult : ℚ) ≤ a.running i := by
    refine (le_running_iff ha hs).2 ⟨le_refl _, fun p hp => ?_⟩
    rw [(ha.stream i s hs).inputProducts_eq_nil hleaf] at hp
    cases hp
  refine ⟨1, stands_one, le_refl 1, .inr ?_⟩
  rw [copies_eq hs, one_mul]
  exact hrunning.trans (le_mul_of_one_le_right (running_nonneg ha i) (one_le_pow₀ (one_le_drift _)))

/-- One link lets an efficiency drift once more. -/
theorem efficiencyBy_atMost (ha : a.Built) (hs : a.stream? i = some s) (hleaf : s.isLeaf = false)
    (hg : ∀ u ∈ s.suppliers, ∀ e, g u = .ok e →
      AtMost (a.running u * drift a.size ^ d) (a.copies u) e)
    (h : efficiencyBy g a i s = .ok e) :
    AtMost (a.running i * drift a.size ^ (d + 1)) (a.copies i) e := by
  have hvalue := fun u (hu : a.Asks i u) e he =>
    (hg u (hu.mem_suppliers hs) e he).imp fun η h => And.intro h.1 h.2.1
  obtain ⟨η, hη, hone, hratios, _⟩ := efficiencyBy_ratios ha hs hleaf hvalue h
  refine ⟨η, hη, hone, or_iff_not_imp_left.2 fun hlarge => ?_⟩
  have hpos := pow_pos (drift_pos a.size) (d + 1)
  rw [copies_eq hs, ← div_le_iff₀ hpos]
  refine (le_running_iff ha hs).2 ⟨?_, fun p hp => ?_⟩
  · have hcopies := zero_le_one.trans (ha.stream i s hs).steady.one_le_mult
    exact (div_le_self (mul_nonneg hη.nonneg hcopies) (one_le_pow₀ (one_le_drift _))).trans
      (mul_le_of_le_one_left hcopies hone)
  · obtain ⟨F, hF, hratio⟩ := hratios p hp
    rw [div_mul_eq_mul_div, div_le_iff₀ hpos]
    exact (hratio.resolve_left hlarge).trans (supplied_le_drift ha hs hg hF)

/-- The copies that an efficiency stands for are hardly more than the copies that run. -/
theorem formula_atMost (ha : a.Built) (h : a.formula i = .ok e) :
    AtMost (a.running i * drift a.size ^ a.depth i) (a.copies i) e := by
  induction i using Nat.strong_induction_on generalizing e with
  | _ i ih =>
  obtain ⟨s, hs⟩ := formula_eq_ok h
  cases hleaf : s.isLeaf with
  | true =>
    rw [formula_of_isLeaf hs hleaf] at h
    obtain rfl := Except.ok.inj h
    exact atMost_leaf ha hs hleaf
  | false =>
    rw [formula_of_suppliers ha.bindsEarlier hs hleaf] at h
    obtain ⟨d, hd⟩ := exists_depth_eq ha.bindsEarlier hs hleaf
    rw [hd]
    refine efficiencyBy_atMost ha hs hleaf (fun u hu e he => ?_) h
    have hsupplies := supplies_of_mem hs hu
    have hdepth := depth_lt ha.bindsEarlier hsupplies
    refine (ih u (ha.bindsEarlier.lt hsupplies) he).mono ?_
    exact mul_le_mul_of_nonneg_left (pow_le_pow_right₀ (one_le_drift _) (by omega))
      (running_nonneg ha u)

/-! ## No efficiency is far too small -/

/-- Nothing that arrives at a stream gets lost in the query: every rate of a supplier is above nothing,
and no tick base of some rates added up leaves the doubles. -/
structure Intact (a : Arena) (s : Stream) : Prop where
  rate : ∀ p ∈ s.recipe.inputProducts, ∀ u ∈ s.suppliers, ∀ ρ,
    a.rateOf u p = .ok (some ρ) → 0 < ρ.flow
  sum : ∀ p ∈ s.recipe.inputProducts, ∀ us ∈ s.suppliers.inits, ∀ F,
    addUp (fun u => a.rateOf u p) Rate.zero us = .ok F → ¬ F.Stops

instance (x : Except Fault Rate) (P : Rate → Prop) [DecidablePred P] :
    Decidable (∀ ρ, x = .ok ρ → P ρ) :=
  match x with
  | .ok ρ => decidable_of_iff (P ρ) ⟨fun h _ hρ => Except.ok.inj hρ ▸ h, fun h => h ρ rfl⟩
  | .error _ => isTrue fun _ h => by cases h

instance (x : Except Fault (Option Rate)) (P : Rate → Prop) [DecidablePred P] :
    Decidable (∀ ρ, x = .ok (some ρ) → P ρ) :=
  match x with
  | .ok (some ρ) =>
    decidable_of_iff (P ρ) ⟨fun h _ hρ => Option.some.inj (Except.ok.inj hρ) ▸ h, fun h => h ρ rfl⟩
  | .ok none => isTrue fun _ h => by cases h
  | .error _ => isTrue fun _ h => by cases h

instance (a : Arena) (s : Stream) : Decidable (a.Intact s) :=
  decidable_of_iff (_ ∧ _) ⟨fun h => ⟨h.1, h.2⟩, fun h => ⟨h.rate, h.sum⟩⟩

theorem le_supplied (ha : a.Built) (hintact : a.Intact s) (hp : p ∈ s.recipe.inputProducts)
    (hf : ∀ u ∈ s.suppliers, 0 ≤ f u)
    (hg : ∀ u ∈ s.suppliers, ∀ e, a.formula u = .ok e →
      ∃ η, Stands e η ∧ η ≤ 1 ∧ f u ≤ max η (2 * tiny) * a.copies u)
    (hF : addUp (fun u => realizedBy a.formula a u p) Rate.zero s.suppliers = .ok F) :
    a.supply f s p ≤ F.flow * slack ^ (5 * s.suppliers.length + 2) := by
  have hslack := slack_pow_pos 2
  have hrateOf : (fun u => a.rateOf u p) = fun u => realizedBy a.formula a u p :=
    funext fun u => rateOf_eq_formula ha.bindsEarlier u p
  have hdelivered : ∀ u ∈ s.suppliers, 0 ≤ a.output u p * f u / slack ^ 2 := fun u hu =>
    div_nonneg (mul_nonneg (output_nonneg ha u p) (hf u hu)) hslack.le
  have hnone : ∀ u ∈ s.suppliers, realizedBy a.formula a u p = .ok none →
      a.output u p * f u / slack ^ 2 = 0 := fun u _ h => by
    rw [output_eq_zero_of_none ha.steady h, zero_mul, zero_div]
  have hrate : ∀ u ∈ s.suppliers, ∀ ρ, realizedBy a.formula a u p = .ok (some ρ) →
      ρ.Ordinary ∧ a.output u p * f u / slack ^ 2 ≤ ρ.flow := by
    intro u hu ρ hρ
    have hvalue := fun e he => (hg u hu e he).imp fun η h => And.intro h.1 h.2.1
    obtain ⟨hordinary, houtput, e, η, he, hη, hsmall, hwithin⟩ := realizedBy_within ha.steady hvalue hρ
    refine ⟨hordinary, ?_⟩
    obtain ⟨η', hη', _, hle⟩ := hg u hu e he
    obtain rfl := hη.unique hη'
    have hpos := hintact.rate p hp u hu ρ (rateOf_eq_formula ha.bindsEarlier u p ▸ hρ)
    have hdrift := hwithin.resolve_right fun hstops => hpos.ne' hstops.flow_eq
    have hlarge : 2 * tiny ≤ η := (le_total _ _).resolve_left fun hle => hpos.ne' (hsmall hle)
    rw [max_eq_left hlarge] at hle
    rw [div_le_iff₀ hslack]
    exact (mul_le_mul_of_nonneg_left hle houtput.le).trans hdrift.2
  have hstays : ∀ us G, us <+: s.suppliers →
      addUp (fun u => realizedBy a.formula a u p) Rate.zero us = .ok G → ¬ G.Stops := by
    rw [← hrateOf]
    exact fun us G hus hG => hintact.sum p hp us ((List.mem_inits _ _).2 hus) G hG
  have hle := le_addUp Rate.ordinary_zero hdelivered hnone hrate hstays hF
  have hsum : (s.suppliers.map fun u => a.output u p * f u / slack ^ 2).sum =
      a.supply f s p / slack ^ 2 := by
    simp only [div_eq_mul_inv]
    exact List.sum_map_mul_right _ _ _
  rw [hsum, Rate.flow_zero, zero_add, div_le_iff₀ hslack] at hle
  rwa [pow_add, ← mul_assoc]

/-- Where the suppliers' efficiencies have drifted over `d` links, no more is there than what arrives over
one more. -/
theorem le_supplied_drift (ha : a.Built) (hs : a.stream? i = some s) (hintact : a.Intact s)
    (hp : p ∈ s.recipe.inputProducts)
    (hg : ∀ u ∈ s.suppliers, ∀ e, a.formula u = .ok e →
      ∃ η, Stands e η ∧ η ≤ 1 ∧ a.running u / drift a.size ^ d ≤ max η (2 * tiny) * a.copies u)
    (hF : addUp (fun u => realizedBy a.formula a u p) Rate.zero s.suppliers = .ok F) (hc : 0 ≤ c)
    (hle : F.flow ≤ c * slack ^ 4) :
    a.supply a.running s p ≤ c * drift a.size ^ (d + 1) := by
  have hdpos := pow_pos (drift_pos a.size) d
  have hsupplied := le_supplied ha hintact hp
    (fun u _ => div_nonneg (running_nonneg ha u) hdpos.le) hg hF
  calc a.supply a.running s p
      = a.supply (fun u => a.running u / drift a.size ^ d) s p * drift a.size ^ d := by
        rw [← supply_mul]
        exact supply_congr fun u _ => (div_mul_cancel₀ _ hdpos.ne').symm
    _ ≤ F.flow * slack ^ (5 * s.suppliers.length + 2) * drift a.size ^ d :=
      mul_le_mul_of_nonneg_right hsupplied hdpos.le
    _ ≤ c * slack ^ 4 * slack ^ (5 * s.suppliers.length + 2) * drift a.size ^ d := by
      refine mul_le_mul_of_nonneg_right ?_ hdpos.le
      exact mul_le_mul_of_nonneg_right hle (slack_pow_pos _).le
    _ = c * slack ^ (5 * s.suppliers.length + 6) * drift a.size ^ d := by ring
    _ ≤ c * drift a.size * drift a.size ^ d := by
      refine mul_le_mul_of_nonneg_right (mul_le_mul_of_nonneg_left ?_ hc) hdpos.le
      exact slack_pow_le_drift (length_suppliers_le ha.bindsEarlier hs)
    _ = c * drift a.size ^ (d + 1) := by ring

/-- An efficiency of one leaves nothing to show. -/
theorem running_le_of_one (ha : a.Built) (hs : a.stream? i = some s) :
    a.running i ≤ max 1 (2 * tiny) * a.copies i * drift a.size ^ d := by
  have hcopies := copies_nonneg ha i
  rw [copies_eq hs] at hcopies ⊢
  have hone : (1 : ℚ) ≤ max 1 (2 * tiny) * drift a.size ^ d :=
    one_le_mul_of_one_le_of_one_le (le_max_left _ _) (one_le_pow₀ (one_le_drift _))
  calc a.running i ≤ s.mult := ((le_running_iff ha hs).1 (le_refl _)).1
    _ ≤ s.mult * (max 1 (2 * tiny) * drift a.size ^ d) := le_mul_of_one_le_right hcopies hone
    _ = max 1 (2 * tiny) * s.mult * drift a.size ^ d := by ring

/-- One link lets an efficiency drift once more. -/
theorem le_efficiencyBy (ha : a.Built) (hs : a.stream? i = some s) (hleaf : s.isLeaf = false)
    (hintact : a.Intact s)
    (hg : ∀ u ∈ s.suppliers, ∀ e, a.formula u = .ok e →
      ∃ η, Stands e η ∧ η ≤ 1 ∧ a.running u / drift a.size ^ d ≤ max η (2 * tiny) * a.copies u)
    (h : efficiencyBy a.formula a i s = .ok e) :
    ∃ η, Stands e η ∧ η ≤ 1 ∧
      a.running i ≤ max η (2 * tiny) * a.copies i * drift a.size ^ (d + 1) := by
  have hvalue := fun u (hu : a.Asks i u) e he =>
    (hg u (hu.mem_suppliers hs) e he).imp fun η h => And.intro h.1 h.2.1
  obtain ⟨η, hη, hone, _, hmet⟩ := efficiencyBy_ratios ha hs hleaf hvalue h
  refine ⟨η, hη, hone, ?_⟩
  rcases hone.eq_or_lt with rfl | hless
  · exact running_le_of_one ha hs
  obtain ⟨p, hp, F, hF, hratio⟩ := hmet hless
  have hdemand := (ha.stream i s hs).steady.demand_pos hp
  have hnonneg : 0 ≤ max η (2 * tiny) * s.mult * s.demand p := by
    rw [← copies_eq hs]
    exact mul_nonneg (mul_nonneg (le_max_of_le_left hη.nonneg) (copies_nonneg ha i)) hdemand.le
  rw [copies_eq hs]
  refine le_of_mul_le_mul_right ?_ hdemand
  calc a.running i * s.demand p
      ≤ a.supply a.running s p := ((le_running_iff ha hs).1 (le_refl _)).2 p hp
    _ ≤ max η (2 * tiny) * s.mult * s.demand p * drift a.size ^ (d + 1) :=
      le_supplied_drift ha hs hintact hp hg hF hnonneg hratio
    _ = max η (2 * tiny) * s.mult * drift a.size ^ (d + 1) * s.demand p := by ring

/-- Where nothing gets lost, the copies that run are hardly more than what an efficiency stands for. -/
theorem le_formula (ha : a.Built)
    (hintact : ∀ j s, Relation.ReflTransGen a.Supplies j i → a.stream? j = some s → a.Intact s)
    (h : a.formula i = .ok e) : ∃ η, Stands e η ∧ η ≤ 1 ∧
      a.running i ≤ max η (2 * tiny) * a.copies i * drift a.size ^ a.depth i := by
  induction i using Nat.strong_induction_on generalizing e with
  | _ i ih =>
  obtain ⟨s, hs⟩ := formula_eq_ok h
  cases hleaf : s.isLeaf with
  | true =>
    rw [formula_of_isLeaf hs hleaf] at h
    obtain rfl := Except.ok.inj h
    exact ⟨1, stands_one, le_refl 1, running_le_of_one ha hs⟩
  | false =>
    rw [formula_of_suppliers ha.bindsEarlier hs hleaf] at h
    obtain ⟨d, hd⟩ := exists_depth_eq ha.bindsEarlier hs hleaf
    rw [hd]
    refine le_efficiencyBy ha hs hleaf (hintact i s .refl hs) (fun u hu e he => ?_) h
    have hsupplies := supplies_of_mem hs hu
    have hdepth := depth_lt ha.bindsEarlier hsupplies
    obtain ⟨η, hη, hone, hle⟩ := ih u (ha.bindsEarlier.lt hsupplies)
      (fun j r hj => hintact j r (hj.tail hsupplies)) he
    refine ⟨η, hη, hone, ?_⟩
    rw [div_le_iff₀ (pow_pos (drift_pos a.size) d)]
    refine hle.trans (mul_le_mul_of_nonneg_left ?_ ?_)
    · exact pow_le_pow_right₀ (one_le_drift _) (by omega)
    · exact mul_nonneg (le_max_of_le_left hη.nonneg) (copies_nonneg ha u)

end Arena

end Conveyor
