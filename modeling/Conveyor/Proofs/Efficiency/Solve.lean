-- SUMMARY: One balancing call brings its target close to full efficiency, up to one tolerance for each link.
import Conveyor.Proofs.Efficiency.Walk

/-!
# Full efficiency

After one call that answers, nearly all copies of the target run: what is missing is at most one
tolerance, and a few roundings, for each link of its longest supply chain. The efficiency that a query
then finds is as high, unless the query itself loses what arrives.
-/

namespace Conveyor

open Binary64

namespace Arena

variable {a b : Arena} {i u : Nat} {s : Stream} {p : Product} {e : Float}

/-! ## Exactly -/

/-- Whatever the periods are, balancing only raises multipliers. -/
theorem solve_raised {c d : Logged Arena} {changes : List Change} {ε : Float}
    (h : solve i ε c = .ok changes d) : c.state.Raised d.state := by
  have hsolve := triple_solve (raised_closedUnderRaise c.state) (i := i) trivial ε c (.refl c.state)
  rwa [h] at hsolve

/-- The target is balanced once it has been balanced, at whatever tolerance. -/
theorem solve_balanced {c d : Logged Arena} {changes : List Change} {ε : Float} {η θ : ℚ}
    (ha : c.state.Built) (hε : Rate.Tolerance ε η θ)
    (hperiod : ∀ j t, c.state.Upstream j i → c.state.stream? j = some t → t.period ≤ limit)
    (hnotices : ∀ a j s e, c.state.Raised a → Relation.ReflTransGen c.state.Supplies j i →
      a.stream? j = some s → a.efficiency j = .ok e → s.Notices ε)
    (h : solve i ε c = .ok changes d) : d.state.Balanced θ i := by
  have hsolve : Action.Yields (· = c.state) (solve i ε) fun _ a => a.Balanced θ i := by
    unfold solve
    refine Action.Triple.focus (S := fun _ b => b.arena.Balanced θ i) (F := fun _ _ => True) ?_
      (fun _ _ _ _ h => h) fun _ _ _ _ _ => trivial
    rintro _ rfl
    refine Action.Yields.bind_current fun b hb => ?_
    subst b
    refine Action.Yields.bind
      (Balancing.balance_balances ha hε rfl hperiod hnotices [] .refl _ (.refl _)) fun _ => ?_
    refine Action.Yields.bind_current fun b hb => Action.Triple.pure fun b' hb' => ?_
    subst b'
    exact hb.2
  exact hsolve.of_eq_ok rfl h

/-- Nearly all copies of a stream run after it has been balanced. -/
theorem solve_met {c d : Logged Arena} {changes : List Change} (ha : c.state.Built)
    (hfed : c.state.Fed)
    (hperiod : ∀ j t, c.state.Upstream j i → c.state.stream? j = some t → t.period ≤ limit)
    (h : solve i defaultEpsilon c = .ok changes d) : d.state.Met i := by
  have hraised := solve_raised h
  refine (solve_balanced ha Rate.defaultTolerance hperiod ?_ h).met (hraised.built ha) (hraised.fed hfed)
  intro a j s e hca _ hs he p hp optimal hoptimal
  have hbuilt := hca.built ha
  obtain ⟨_, _, hticks⟩ := optimalOf_eq_ok (hbuilt.stream j s hs).steady hoptimal
  exact Rate.noticed_default hticks fun y hy => optimal_ne_zero hbuilt hs hp he hoptimal hy

/-! ## As a query finds it -/

theorem exists_of_addUp {rate : Nat → Except Fault (Option Rate)} {total F : Rate} {us : List Nat}
    (h : addUp rate total us = .ok F) (hu : u ∈ us) : ∃ r, rate u = .ok r := by
  induction us generalizing total with
  | nil => cases hu
  | cons v us ih =>
    obtain ⟨r, next, hr, hrest, _⟩ := addUp_cons_eq_ok h
    rcases List.mem_cons.1 hu with rfl | hu
    · exact ⟨r, hr⟩
    · exact ih hrest hu

/-- An integer that has a double is no more than the limit of the doubles. -/
theorem le_limit_of_toDouble {n : Int} {x : Float} (hn : 0 < n) (h : toDouble n = .ok x) :
    (n : ℚ) ≤ limit := by
  unfold toDouble at h
  split at h
  · obtain rfl := Except.ok.inj h
    obtain ⟨w, hw, hnear⟩ := ofInt?_near hn.le (by assumption)
    have hone : (1 : ℚ) ≤ n := by exact_mod_cast hn
    have hmax : max ((n : ℚ) / 2 ^ 53) grain = n / 2 ^ 53 := by
      have hgrain : grain ≤ 2 ^ (-53 : Int) := zpow_le_zpow_right₀ one_le_two (by decide)
      have hpow : (2 : ℚ) ^ (-53 : Int) = 1 / 2 ^ 53 := by norm_num
      exact max_eq_left ((hgrain.trans_eq hpow).trans (div_le_div_of_nonneg_right hone (by norm_num)))
    have herror := (abs_le.1 (hmax ▸ hnear.error)).1
    linarith [hw.le_largest]
  · cases h

/-- Where a stream has an efficiency, so do its suppliers, and their periods are doubles. -/
theorem formula_of_supplies (ha : a.Built) (hfed : a.Fed) (hs : a.stream? i = some s)
    (hintact : a.Intact s) (h : a.formula i = .ok e) (hu : u ∈ s.suppliers) :
    ∃ t e, a.stream? u = some t ∧ a.formula u = .ok e ∧ t.period ≤ limit := by
  obtain ⟨slot, hslot, rfl⟩ := List.mem_map.1 (List.mem_eraseDups.1 hu)
  have hp := (ha.stream i s hs).mem_inputProducts hslot
  obtain ⟨t, ht, houtput⟩ := hfed i s hs slot hslot
  have hleaf : s.isLeaf = false := List.isEmpty_eq_false_iff.2 (List.ne_nil_of_mem hslot)
  rw [formula_of_suppliers ha.bindsEarlier hs hleaf] at h
  obtain ⟨_, _, hall, _⟩ := efficiencyBy_eq_ok ha.steady hs h
  obtain ⟨z, _, hz⟩ := hall slot.product hp
  obtain ⟨_, _, _, _, hF, _, _⟩ := ratioBy_eq_ok ha.steady hs hp hz
  obtain ⟨r, hr⟩ := exists_of_addUp hF hu
  obtain ⟨t', outflow, ht', houtflow, ⟨hzero, _⟩ | ⟨hsome, e', stretched, ρ', he', hstretched,
    htimes, rfl⟩⟩ :=
    realizedBy_eq_ok hr
  all_goals obtain rfl := Option.some.inj (ht.symm.trans ht')
  · have hnone := (outflow_eq ha.steady ht houtflow).1
    rw [Rate.flow_of_isZero hzero, output_eq ht] at hnone
    exact absurd hnone.symm ((ha.stream _ t ht).steady.output_pos houtput).ne'
  · refine ⟨t, e', ht, he', ?_⟩
    have htbuilt := ha.stream _ t ht
    obtain ⟨n, hn⟩ := htbuilt.timed
    obtain ⟨ρ, hρ, hrate⟩ := Recipe.outflowOf_eq_ok hn htbuilt.positive slot.product
    obtain rfl := Except.ok.inj (houtflow.symm.trans hρ)
    have hpos : ¬ e' ≤ 0.0 := by
      intro hle
      have hnothing := hintact.rate _ hp _ hu _ (rateOf_eq_formula ha.bindsEarlier _ _ ▸ hr)
      rw [Rate.flow_times htimes, Rate.flow_of_stretch_nothing hle hstretched, zero_mul] at hnothing
      exact lt_irrefl _ hnothing
    have hticks := hrate.ticks
    rw [if_neg (Recipe.yieldOf_pos htbuilt.positive houtput).ne'] at hticks
    obtain ⟨x, hx⟩ := Rate.exists_toDouble_of_stretch hticks hsome hpos hstretched
    rw [Stream.period, hn.ticks]
    exact le_limit_of_toDouble hn.pos hx

/-- All along the supply chains of a stream with an efficiency the periods are doubles. -/
theorem period_le_limit (ha : a.Built) (hfed : a.Fed)
    (hintact : ∀ j s, Relation.ReflTransGen a.Supplies j i → a.stream? j = some s → a.Intact s)
    (h : a.formula i = .ok e) {j : Nat} (hj : a.Upstream j i) (hs : a.stream? j = some s) :
    s.period ≤ limit := by
  have hformula : ∀ k, Relation.ReflTransGen a.Supplies k i → ∃ e, a.formula k = .ok e := by
    intro k hk
    induction hk using Relation.ReflTransGen.head_induction_on with
    | refl => exact ⟨e, h⟩
    | head hkl hli ih =>
      obtain ⟨e, he⟩ := ih
      obtain ⟨t, ht, slot, hslot, rfl⟩ := hkl
      have hmem := List.mem_eraseDups.2 (List.mem_map_of_mem (f := Slot.supplier) hslot)
      obtain ⟨_, e', _, he', _⟩ := formula_of_supplies ha hfed ht (hintact _ t hli ht) he hmem
      exact ⟨e', he'⟩
  obtain ⟨k, ⟨t, ht, slot, hslot, rfl⟩, hki⟩ := Relation.TransGen.head'_iff.1 hj
  obtain ⟨e, he⟩ := hformula k hki
  have hmem := List.mem_eraseDups.2 (List.mem_map_of_mem (f := Slot.supplier) hslot)
  obtain ⟨t', _, ht', _, hperiod⟩ := formula_of_supplies ha hfed ht (hintact k t hki ht) he hmem
  obtain rfl := Option.some.inj (hs.symm.trans ht')
  exact hperiod

/-! ## What is missing -/

/-- What one link of a supply chain may take from an efficiency, in an arena of `n` streams. -/
def loss (n : Nat) : ℚ := 1 / 10 ^ 9 + (n + 2) / 2 ^ 44

/-- Some roundings cost no more than their number says. -/
theorem one_sub_le_inv_slack (k : Nat) : 1 - k / 2 ^ 48 ≤ (1 / slack ^ k : ℚ) := by
  have hstep : (-1 / 2 ^ 48 : ℚ) ≤ 1 / slack - 1 := by norm_num [slack]
  calc (1 - k / 2 ^ 48 : ℚ) = 1 + k * (-1 / 2 ^ 48) := by ring
    _ ≤ 1 + k * (1 / slack - 1) := by gcongr
    _ ≤ (1 + (1 / slack - 1)) ^ k := one_add_mul_le_pow (by norm_num [slack]) k
    _ = 1 / slack ^ k := by rw [add_sub_cancel, div_pow, one_pow]

theorem le_part_div_drift (n : Nat) : 1 - (loss n - 2 * tiny) ≤ part n / drift n := by
  have htiny : tiny ≤ 2 ^ (-48 : Int) := zpow_le_zpow_right₀ one_le_two (by decide)
  have hpow : (2 : ℚ) ^ (-48 : Int) = 1 / 2 ^ 48 := by norm_num
  have hslack := one_sub_le_inv_slack (10 * n + 20)
  have hvalue : part n / drift n = (1 - 1 / 10 ^ 9) * (1 / slack ^ (10 * n + 20)) := by
    rw [part, Rate.kept, drift, div_div, div_div, ← pow_add, ← pow_add, mul_one_div]
    congr 2
    ring
  have hn : (0 : ℚ) ≤ n := Nat.cast_nonneg n
  rw [hvalue, loss]
  push_cast at hslack
  rw [hpow] at htiny
  have hinv : 1 / slack ^ (10 * n + 20) ≤ 1 := by
    rw [div_le_one₀ (slack_pow_pos _)]
    exact one_le_slack_pow _
  linarith

/-- The parts that the links leave are no less than the whole less what each link may take. -/
theorem one_sub_loss_le (n d : Nat) : 1 - d * (loss n - 2 * tiny) ≤ (part n / drift n) ^ d := by
  have hpart := le_part_div_drift n
  have hpos : 0 ≤ part n / drift n := div_nonneg (part_pos n).le (drift_pos n).le
  calc (1 - d * (loss n - 2 * tiny) : ℚ) = 1 + d * (1 - (loss n - 2 * tiny) - 1) := by ring
    _ ≤ 1 + d * (part n / drift n - 1) := by gcongr
    _ ≤ (1 + (part n / drift n - 1)) ^ d := one_add_mul_le_pow (by linarith) d
    _ = (part n / drift n) ^ d := by rw [add_sub_cancel]

/-- What is lost below the smallest doubles counts against the links as well. An efficiency of next to
nothing is only found where the chain may take all of it. -/
theorem one_sub_le_of_le_max {d : Nat} {η l : ℚ} (hη : 0 ≤ η) (h : 1 - d * (l - 2 * tiny) ≤ max η (2 * tiny)) :
    1 - d * l ≤ η := by
  have hlinks : (0 : ℚ) ≤ d * (2 * tiny) := mul_nonneg (Nat.cast_nonneg _) (mul_pos two_pos tiny_pos).le
  rcases max_choice η (2 * tiny) with hfound | hnothing
  · rw [hfound] at h
    linarith
  · rw [hnothing] at h
    cases d with
    | zero =>
      rw [Nat.cast_zero, zero_mul, sub_zero] at h
      linarith [tiny_le, tiny_pos]
    | succ k =>
      have hlink : 2 * tiny ≤ (k + 1 : Nat) * (2 * tiny) := by
        refine le_mul_of_one_le_left (mul_pos two_pos tiny_pos).le ?_
        exact_mod_cast Nat.le_add_left 1 k
      linarith

/-- After one balancing call the target has the efficiency that is asked for, but for one tolerance and
a few roundings for each link of its longest supply chain. -/
theorem solve_efficiency {c d : Logged Arena} {changes : List Change} {e : Float}
    (ha : c.state.Built) (hfed : c.state.Fed) (h : solve i defaultEpsilon c = .ok changes d)
    (hintact : ∀ j s, Relation.ReflTransGen d.state.Supplies j i → d.state.stream? j = some s →
      d.state.Intact s)
    (he : d.state.efficiency i = .ok e) :
    1 - c.state.depth i * loss c.state.size ≤ value e := by
  have hraised := solve_raised h
  rw [← hraised.depth_eq, ← hraised.size]
  have hbuilt := hraised.built ha
  rw [efficiency_eq_formula hbuilt.bindsEarlier] at he
  have hperiod : ∀ j t, c.state.Upstream j i → c.state.stream? j = some t → t.period ≤ limit := by
    intro j t hj ht
    obtain ⟨t', ht', hst⟩ := hraised.stream j t ht
    rw [← hst.period]
    exact period_le_limit hbuilt (hraised.fed hfed) hintact he
      (Relation.TransGen.mono (fun _ _ => hraised.supplies_iff.2) j i hj) ht'
  have hmet := solve_met ha hfed hperiod h
  obtain ⟨η, hη, _, hle⟩ := le_formula hbuilt hintact he
  obtain ⟨s, hs⟩ := formula_eq_ok he
  have hcopies : (0 : ℚ) < d.state.copies i := by
    rw [copies_eq hs]
    exact one_pos.trans_le (hbuilt.stream i s hs).steady.one_le_mult
  have hmax : 1 - d.state.depth i * (loss d.state.size - 2 * tiny) ≤ max η (2 * tiny) := by
    refine (one_sub_loss_le _ _).trans ?_
    have hdrift := pow_pos (drift_pos d.state.size) (d.state.depth i)
    rw [div_pow, div_le_iff₀ hdrift]
    refine le_of_mul_le_mul_right ?_ hcopies
    exact (Met.eq_1 _ _ ▸ hmet).trans (hle.trans_eq (by ring))
  rw [hη.value_eq]
  exact one_sub_le_of_le_max hη.nonneg hmax

/-- The mine and the smelter are streams that registration makes. -/
theorem mining_built (rest : Nat) {shafts : Int} (h : 1 ≤ shafts) : (mining rest shafts).Built where
  bindsEarlier := by
    intro e he slot hslot
    simp only [mining, List.zipIdx_cons, List.zipIdx_nil, List.mem_cons, List.not_mem_nil, or_false] at he
    rcases he with rfl | rfl <;> simp_all [Stream.fresh]
  stream
    | 0, _, rfl => ⟨⟨rest + 1, rfl, rfl⟩, ⟨by simp [Stream.fresh, Recipe.every], by
        simp [Stream.fresh, Recipe.every]⟩, rfl, h⟩
    | 1, _, rfl => ⟨⟨2, rfl, rfl⟩, ⟨by simp [Stream.fresh, Recipe.every], by
        simp [Stream.fresh, Recipe.every]⟩, rfl, by decide⟩

theorem mining_fed (rest : Nat) (shafts : Int) : (mining rest shafts).Fed
  | 0, _, rfl => fun _ hslot => absurd hslot List.not_mem_nil
  | 1, _, rfl => fun slot hslot => by
    obtain rfl := List.mem_singleton.1 hslot
    exact ⟨_, rfl, List.mem_singleton.2 rfl⟩

/-- The smelter gets all the ore that it needs. -/
theorem solve_efficiency_mining :
    ∃ t e, solve 1 defaultEpsilon { state := mining 3 1 } = .ok [⟨0, 1, 4⟩] t ∧
      t.state.efficiency 1 = .ok e ∧
      1 - (mining 3 1).depth 1 * loss (mining 3 1).size ≤ value e := by
  have hrun : (match solve 1 defaultEpsilon { state := mining 3 1 } with
      | .ok changes t => decide (changes = [⟨0, 1, 4⟩]) && decide (∀ s ∈ t.state.streams, t.state.Intact s) &&
        (t.state.efficiency 1).toBool
      | .error _ _ => false) = true := by
    decide +kernel
  cases h : solve 1 defaultEpsilon { state := mining 3 1 } with
  | error f t => rw [h] at hrun; cases hrun
  | ok changes t =>
    rw [h] at hrun
    simp only [Bool.and_eq_true, decide_eq_true_eq] at hrun
    obtain ⟨⟨rfl, hintact⟩, he⟩ := hrun
    cases hefficiency : t.state.efficiency 1 with
    | error f => rw [hefficiency] at he; cases he
    | ok e =>
      refine ⟨t, e, rfl, hefficiency, ?_⟩
      exact solve_efficiency (mining_built 3 (by decide)) (mining_fed 3 1) h
        (fun _ s _ hs => hintact s (List.mem_of_getElem? hs)) hefficiency

/-- A mine, a refinery and a workshop, each bound to the one before it, that all lack nine in ten
thousand million units of what they are asked for. -/
def leaky : Arena :=
  ⟨[Stream.fresh (Recipe.every 1 Int.one_pos [] [⟨⟨0, 0⟩, 9999999991⟩]) [] 1 8,
    Stream.fresh (Recipe.every 1 Int.one_pos [⟨⟨0, 0⟩, 10000000000⟩] [⟨⟨1, 0⟩, 9999999991⟩])
      [⟨⟨0, 0⟩, 0⟩] 1 8,
    Stream.fresh (Recipe.every 1 Int.one_pos [⟨⟨1, 0⟩, 10000000000⟩] [⟨⟨2, 0⟩, 1⟩])
      [⟨⟨1, 0⟩, 1⟩] 1 8]⟩

theorem leaky_built : leaky.Built where
  bindsEarlier := by decide
  stream
    | 0, _, rfl => ⟨⟨1, rfl, rfl⟩, ⟨by decide, by decide⟩, rfl, by decide⟩
    | 1, _, rfl => ⟨⟨1, rfl, rfl⟩, ⟨by decide, by decide⟩, rfl, by decide⟩
    | 2, _, rfl => ⟨⟨1, rfl, rfl⟩, ⟨by decide, by decide⟩, rfl, by decide⟩

theorem leaky_fed : leaky.Fed
  | 0, _, rfl => fun _ hslot => absurd hslot List.not_mem_nil
  | 1, _, rfl => fun slot hslot => by
    obtain rfl := List.mem_singleton.1 hslot
    exact ⟨_, rfl, List.mem_singleton.2 rfl⟩
  | 2, _, rfl => fun slot hslot => by
    obtain rfl := List.mem_singleton.1 hslot
    exact ⟨_, rfl, List.mem_singleton.2 rfl⟩

/-- Each link misses less than the tolerance, so nothing is raised; both together miss more, so the
target stays below what balancing accepts. -/
theorem solve_leaves_leaky_short :
    leaky.Built ∧ leaky.Fed ∧
      ∃ t e, solve 2 defaultEpsilon { state := leaky } = .ok [] t ∧ t.state.efficiency 2 = .ok e ∧
        ¬ 1.0 - defaultEpsilon ≤ e := by
  have hrun : (match solve 2 defaultEpsilon { state := leaky } with
      | .ok changes t => decide (changes = []) &&
        (match t.state.efficiency 2 with
          | .ok e => decide (¬ 1.0 - defaultEpsilon ≤ e)
          | .error _ => false)
      | .error _ _ => false) = true := by
    decide +kernel
  refine ⟨leaky_built, leaky_fed, ?_⟩
  cases h : solve 2 defaultEpsilon { state := leaky } with
  | error f t => rw [h] at hrun; cases hrun
  | ok changes t =>
    rw [h] at hrun
    simp only [Bool.and_eq_true, decide_eq_true_eq] at hrun
    obtain ⟨rfl, hshort⟩ := hrun
    cases he : t.state.efficiency 2 with
    | error f => rw [he] at hshort; cases hshort
    | ok e =>
      rw [he] at hshort
      exact ⟨t, e, rfl, he, of_decide_eq_true hshort⟩

end Arena

end Conveyor
