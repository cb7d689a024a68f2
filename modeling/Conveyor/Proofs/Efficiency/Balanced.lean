-- SUMMARY: What balancing a stream brings about: up to the tolerance, every link behind it has the copies it needs.
import Conveyor.Proofs.Efficiency.Drift
import Conveyor.Proofs.Rate.Raise

/-!
# Balanced streams

Balancing looks at one link of a supply chain at a time, and lets every link fall short by the tolerance
and by the drift of what it computes. A stream is balanced if it runs, or if every supplier that can serve
it has the copies for that and delivers, or is balanced itself. More copies elsewhere leave it balanced, as
long as whatever has got them is balanced again.

Where every slot can be served, the parts that the links of a chain may miss multiply, and no more than that
is missing: the stream is met.
-/

namespace Conveyor

open Binary64

namespace Arena

variable {a b c : Arena} {i u : Nat} {s t : Stream} {p : Product} {e ε : Float} {D η θ : ℚ}

/-! ## Balanced streams -/

/-- Stream `u` has the copies for a demand for a product, if the tolerance leaves `θ` of it, but for a few
roundings. -/
def Able (θ : ℚ) (a : Arena) (u : Nat) (p : Product) (demand : ℚ) : Prop :=
  θ * demand ≤ a.output u p * a.copies u * slack ^ 8

/-- Of these copies enough run, but for the drift of the efficiencies behind them. -/
def Delivers (θ : ℚ) (a : Arena) (u : Nat) (p : Product) (demand : ℚ) : Prop :=
  θ * demand ≤ a.output u p * a.running u * drift a.size ^ (a.depth u + 1) * slack ^ 8

/-- As many copies of stream `i` run as the tolerance asks for, but for the same drift. -/
def Runs (θ : ℚ) (a : Arena) (i : Nat) : Prop := θ * a.copies i ≤ a.running i * drift a.size ^ a.depth i

/-- The stream runs as the tolerance asks for, or none of its suppliers lacks copies of its own, and those
that deliver too little are balanced themselves. What a supplier does not make at all does not count. -/
inductive Balanced (θ : ℚ) (a : Arena) : Nat → Prop
  | runs {i : Nat} {s : Stream} (stream : a.stream? i = some s) (h : a.Runs θ i) : Balanced θ a i
  | served {i : Nat} {s : Stream} (stream : a.stream? i = some s)
      (able : ∀ slot ∈ s.inputs, 0 < a.output slot.supplier slot.product →
        a.Able θ slot.supplier slot.product (s.demand slot.product * s.mult))
      (below : ∀ slot ∈ s.inputs, 0 < a.output slot.supplier slot.product →
        ¬ a.Delivers θ slot.supplier slot.product (s.demand slot.product * s.mult) →
        Balanced θ a slot.supplier) : Balanced θ a i

theorem Balanced.exists_stream (hi : a.Balanced θ i) : ∃ s, a.stream? i = some s := by
  cases hi with
  | runs hs _ => exact ⟨_, hs⟩
  | served hs _ _ => exact ⟨_, hs⟩

/-- Nothing is left to do about stream `u` for a demand for a product. -/
def Serves (θ : ℚ) (a : Arena) (u : Nat) (p : Product) (demand : ℚ) : Prop :=
  0 < a.output u p → a.Able θ u p demand ∧ (¬ a.Delivers θ u p demand → a.Balanced θ u)

theorem balanced_of_serves (hs : a.stream? i = some s)
    (h : ∀ slot ∈ s.inputs, a.Serves θ slot.supplier slot.product (s.demand slot.product * s.mult)) :
    a.Balanced θ i :=
  .served hs (fun slot hslot hpos => (h slot hslot hpos).1) fun slot hslot hpos => (h slot hslot hpos).2

/-- A stream with an efficiency within the tolerance is balanced. -/
theorem balanced_of_efficiency (ha : a.Built) (hε : Rate.Tolerance ε η θ) (h : a.efficiency i = .ok e)
    (hle : 1.0 - ε ≤ e) : a.Balanced θ i := by
  rw [efficiency_eq_formula ha.bindsEarlier] at h
  obtain ⟨s, hs⟩ := formula_eq_ok h
  obtain ⟨q, hq, _, hbound⟩ := formula_atMost ha h
  have hrest : θ ≤ q := WithTop.coe_le_coe.1 ((le_iff hε.rest.size hq.size).1 hle)
  have hcount := hbound.resolve_left (not_le.2 (hε.two_tiny_lt.trans_le hrest))
  exact .runs hs ((mul_le_mul_of_nonneg_right hrest (copies_nonneg ha i)).trans hcount)

theorem rateOf_ordinary (ha : a.Built) {ρ : Rate} (h : a.rateOf u p = .ok (some ρ)) : ρ.Ordinary := by
  rw [rateOf_eq_formula ha.bindsEarlier] at h
  exact (realizedBy_within ha.steady (fun e he =>
    (formula_atMost ha he).imp fun η h => And.intro h.1 h.2.1) h).1

/-- What a supplier delivers as a rate is hardly more than what its copies that run give. -/
theorem flow_le_of_rateOf (ha : a.Built) {ρ : Rate} (h : a.rateOf u p = .ok (some ρ)) :
    ρ.flow ≤ a.output u p * a.running u * drift a.size ^ (a.depth u + 1) := by
  rw [rateOf_eq_formula ha.bindsEarlier] at h
  have hvalue := fun e he => (formula_atMost (i := u) (e := e) ha he).imp fun η h => And.intro h.1 h.2.1
  obtain ⟨_, houtput, e, η, he, hη, hsmall, hwithin⟩ := realizedBy_within ha.steady hvalue h
  obtain ⟨η', hη', _, hbound⟩ := formula_atMost ha he
  obtain rfl := hη.unique hη'
  have hrunning := running_nonneg ha u
  have hnonneg : 0 ≤ a.output u p * a.running u * drift a.size ^ (a.depth u + 1) :=
    mul_nonneg (mul_nonneg houtput.le hrunning) (pow_pos (drift_pos a.size) _).le
  rcases hbound with hle | hcount
  · rw [hsmall hle]
    exact hnonneg
  · rcases hwithin with hwithin | hstops
    · calc ρ.flow ≤ a.output u p * (η * a.copies u) * slack ^ 2 := hwithin.1
        _ ≤ a.output u p * (a.running u * drift a.size ^ a.depth u) * drift a.size := by
          refine mul_le_mul (mul_le_mul_of_nonneg_left hcount houtput.le) ?_ (slack_pow_pos 2).le ?_
          · exact pow_le_pow_right₀ one_le_slack (by omega)
          · exact mul_nonneg houtput.le (mul_nonneg hrunning (pow_pos (drift_pos _) _).le)
        _ = a.output u p * a.running u * drift a.size ^ (a.depth u + 1) := by ring
    · rw [hstops.flow_eq]
      exact hnonneg

/-- A supplier whose realized rate is enough delivers. -/
theorem delivers_of_rateOf (ha : a.Built) {ρ : Rate} (h : a.rateOf u p = .ok (some ρ))
    (henough : θ * D ≤ ρ.flow * slack ^ 8) : a.Delivers θ u p D :=
  henough.trans (mul_le_mul_of_nonneg_right (flow_le_of_rateOf ha h) (slack_pow_pos 8).le)

/-! ## More copies elsewhere -/

theorem copies_congr (h : a.stream? i = c.stream? i) : a.copies i = c.copies i := by
  rw [copies, copies, h]

theorem Able.mono (h : a.Raised b) (ha : a.Built) (hu : a.Able θ u p D) : b.Able θ u p D := by
  unfold Able at *
  rw [h.output_eq]
  refine hu.trans (mul_le_mul_of_nonneg_right ?_ (slack_pow_pos 8).le)
  exact mul_le_mul_of_nonneg_left (Int.cast_le.2 (h.copies_le u)) (output_nonneg ha u p)

theorem Delivers.mono (h : a.Raised b) (ha : a.Built) (hu : a.Delivers θ u p D) : b.Delivers θ u p D := by
  unfold Delivers at *
  rw [h.size, h.depth_eq, h.output_eq]
  refine hu.trans (mul_le_mul_of_nonneg_right ?_ (slack_pow_pos 8).le)
  refine mul_le_mul_of_nonneg_right ?_ (pow_pos (drift_pos _) _).le
  exact mul_le_mul_of_nonneg_left (h.running_le ha u) (output_nonneg ha u p)

/-- Only raises lead from one arena to the other, and what has been raised is balanced. -/
structure Rebalanced (θ : ℚ) (a b : Arena) : Prop where
  raised : a.Raised b
  balanced : ∀ j, a.copies j < b.copies j → b.Balanced θ j

/-- A stream stays balanced: if it has got more copies, it is balanced again, and otherwise its suppliers
still are. -/
theorem Balanced.mono (h : a.Rebalanced θ b) (ha : a.Built) (hi : a.Balanced θ i) : b.Balanced θ i := by
  induction hi with
  | @runs i s hs hruns =>
    rcases (h.raised.copies_le i).lt_or_eq with hmore | hcopies
    · exact h.balanced i hmore
    · obtain ⟨t, ht, _⟩ := h.raised.stream i s hs
      refine .runs ht ?_
      rw [Runs, h.raised.size, h.raised.depth_eq, ← hcopies]
      exact hruns.trans (mul_le_mul_of_nonneg_right (h.raised.running_le ha i) (pow_pos (drift_pos _) _).le)
  | @served i s hs able _ ih =>
    rcases (h.raised.copies_le i).lt_or_eq with hmore | hcopies
    · exact h.balanced i hmore
    · obtain ⟨t, ht, hst⟩ := h.raised.stream i s hs
      rw [copies_eq hs, copies_eq ht] at hcopies
      have hdemand (p : Product) : t.demand p * t.mult = s.demand p * s.mult := by rw [hst.demand, hcopies]
      refine .served ht (fun slot hslot hpos => ?_) fun slot hslot hpos hshort => ?_
      all_goals
        rw [hst.inputs] at hslot
        rw [h.raised.output_eq] at hpos
      · rw [hdemand]
        exact (able slot hslot hpos).mono h.raised ha
      · rw [hdemand] at hshort
        exact ih slot hslot hpos fun hdelivers => hshort (hdelivers.mono h.raised ha)

theorem Serves.mono (h : a.Rebalanced θ b) (ha : a.Built) (hu : a.Serves θ u p D) : b.Serves θ u p D := by
  intro hpos
  rw [h.raised.output_eq] at hpos
  obtain ⟨able, below⟩ := hu hpos
  exact ⟨able.mono h.raised ha, fun hshort => (below fun hdelivers => hshort (hdelivers.mono h.raised ha)).mono h ha⟩

theorem Rebalanced.refl (a : Arena) : a.Rebalanced θ a := ⟨.refl a, fun _ h => absurd h (Int.lt_irrefl _)⟩

theorem Rebalanced.trans (h : a.Rebalanced θ b) (h' : b.Rebalanced θ c) (ha : a.Built) : a.Rebalanced θ c where
  raised := h.raised.trans h'.raised
  balanced j hmore := by
    rcases (h'.raised.copies_le j).lt_or_eq with hlater | hsame
    · exact h'.balanced j hlater
    · exact (h.balanced j (hsame ▸ hmore)).mono h' (h.raised.built ha)

/-! ## What is missing where every slot can be served -/

/-- What one link of a supply chain leaves at the least, in an arena of `n` streams. -/
def part (n : Nat) : ℚ := Rate.kept / drift n

/-- All but what the links of its longest supply chain may miss of the copies of stream `i` run. -/
def Met (a : Arena) (i : Nat) : Prop := part a.size ^ a.depth i * a.copies i ≤ a.running i

/-- Stream `u` covers a demand for a product, but for what its supply chain and its own link may miss. -/
def Covers (a : Arena) (u : Nat) (p : Product) (demand : ℚ) : Prop :=
  part a.size ^ (a.depth u + 1) * demand ≤ a.output u p * a.running u

theorem kept_pos : 0 < Rate.kept := div_pos (by norm_num) (slack_pow_pos 8)

theorem part_pos (n : Nat) : 0 < part n := div_pos kept_pos (drift_pos n)

theorem part_le_kept (n : Nat) : part n ≤ Rate.kept :=
  div_le_self Rate.kept_nonneg (one_le_drift n)

theorem part_le_one (n : Nat) : part n ≤ 1 := (part_le_kept n).trans Rate.kept_le_one

/-- The tolerance counts once along a chain, however long. -/
theorem part_pow_le (n d : Nat) : part n ^ (d + 1) ≤ Rate.kept / drift n ^ (d + 1) := by
  rw [part, div_pow]
  refine div_le_div_of_nonneg_right ?_ (pow_pos (drift_pos n) _).le
  rw [pow_succ]
  exact mul_le_of_le_one_left Rate.kept_nonneg (pow_le_one₀ Rate.kept_nonneg Rate.kept_le_one)

/-- So many copies of a supplier that make enough cover a demand once they run. -/
theorem covers_of_running (ha : a.Built) (hD : 0 ≤ D) (hrunning : a.Met u)
    (henough : Rate.kept * D ≤ a.output u p * a.copies u) : a.Covers u p D := by
  have hpow := pow_pos (part_pos a.size) (a.depth u)
  calc part a.size ^ (a.depth u + 1) * D = part a.size ^ a.depth u * (part a.size * D) := by ring
    _ ≤ part a.size ^ a.depth u * (Rate.kept * D) :=
      mul_le_mul_of_nonneg_left (mul_le_mul_of_nonneg_right (part_le_kept _) hD) hpow.le
    _ ≤ part a.size ^ a.depth u * (a.output u p * a.copies u) := mul_le_mul_of_nonneg_left henough hpow.le
    _ = a.output u p * (part a.size ^ a.depth u * a.copies u) := by ring
    _ ≤ a.output u p * a.running u := mul_le_mul_of_nonneg_left hrunning (output_nonneg ha u p)

theorem Delivers.covers (hD : 0 ≤ D) (h : a.Delivers Rate.enough u p D) : a.Covers u p D := by
  have hpos := pow_pos (drift_pos a.size) (a.depth u + 1)
  calc part a.size ^ (a.depth u + 1) * D
      ≤ Rate.kept / drift a.size ^ (a.depth u + 1) * D := mul_le_mul_of_nonneg_right (part_pow_le _ _) hD
    _ = Rate.kept * D / drift a.size ^ (a.depth u + 1) := div_mul_eq_mul_div _ _ _
    _ ≤ a.output u p * a.running u := (div_le_iff₀ hpos).2 (Rate.kept_mul_le hD h)

/-- A stream is met once a supplier covers its demand in every slot. -/
theorem met_of_covers (ha : a.Built) (hs : a.stream? i = some s)
    (h : ∀ slot ∈ s.inputs, a.Covers slot.supplier slot.product (s.demand slot.product * s.mult)) :
    a.Met i := by
  have hbuilt := ha.stream i s hs
  have hcopies := zero_le_one.trans hbuilt.steady.one_le_mult
  have hpart := part_pos a.size
  have hpow := pow_pos hpart (a.depth i)
  rw [Met, copies_eq hs]
  refine (le_running_iff ha hs).2 ⟨?_, fun p hp => ?_⟩
  · exact mul_le_of_le_one_left hcopies (pow_le_one₀ hpart.le (part_le_one _))
  · obtain ⟨slot, hslot, rfl⟩ := hbuilt.exists_slot hp
    have hdepth := depth_lt ha.bindsEarlier ⟨s, hs, slot, hslot, rfl⟩
    have hmem : slot.supplier ∈ s.suppliers := List.mem_eraseDups.2 (List.mem_map_of_mem hslot)
    have hdemand : 0 ≤ s.demand slot.product * s.mult := mul_nonneg (hbuilt.steady.demand_pos hp).le hcopies
    calc part a.size ^ a.depth i * s.mult * s.demand slot.product
        = part a.size ^ a.depth i * (s.demand slot.product * s.mult) := by ring
      _ ≤ part a.size ^ (a.depth slot.supplier + 1) * (s.demand slot.product * s.mult) :=
        mul_le_mul_of_nonneg_right (pow_le_pow_of_le_one hpart.le (part_le_one _) hdepth) hdemand
      _ ≤ a.output slot.supplier slot.product * a.running slot.supplier := h slot hslot
      _ ≤ a.supply a.running s slot.product := le_supply ha (running_nonneg ha) hmem

/-- A leaf runs all its copies. -/
theorem met_of_isLeaf (ha : a.Built) (hs : a.stream? i = some s) (hleaf : s.isLeaf = true) : a.Met i := by
  refine met_of_covers ha hs fun slot hslot => ?_
  rw [List.isEmpty_iff.1 hleaf] at hslot
  cases hslot

/-- Where every slot can be served, what is balanced up to the default tolerance is met. -/
theorem Balanced.met (ha : a.Built) (hfed : a.Fed) (hi : a.Balanced Rate.enough i) : a.Met i := by
  induction hi with
  | @runs i s hs hruns =>
    cases hleaf : s.isLeaf with
    | true => exact met_of_isLeaf ha hs hleaf
    | false =>
      obtain ⟨d, hd⟩ := exists_depth_eq ha.bindsEarlier hs hleaf
      have hpos := pow_pos (drift_pos a.size) (d + 1)
      have hcopies := copies_nonneg ha i
      rw [Runs, hd] at hruns
      rw [Met, hd]
      calc part a.size ^ (d + 1) * a.copies i
          ≤ Rate.kept / drift a.size ^ (d + 1) * a.copies i :=
            mul_le_mul_of_nonneg_right (part_pow_le _ d) hcopies
        _ = Rate.kept * a.copies i / drift a.size ^ (d + 1) := div_mul_eq_mul_div _ _ _
        _ ≤ Rate.enough * a.copies i / drift a.size ^ (d + 1) := by
            refine div_le_div_of_nonneg_right ?_ hpos.le
            exact mul_le_mul_of_nonneg_right Rate.kept_le_enough hcopies
        _ ≤ a.running i := (div_le_iff₀ hpos).2 hruns
  | @served i s hs able _ ih =>
    have hsteady := (ha.stream i s hs).steady
    refine met_of_covers ha hs fun slot hslot => ?_
    have hp := (ha.stream i s hs).mem_inputProducts hslot
    have hD : 0 ≤ s.demand slot.product * s.mult :=
      mul_nonneg (hsteady.demand_pos hp).le (zero_le_one.trans hsteady.one_le_mult)
    obtain ⟨t, ht, houtput⟩ := hfed i s hs slot hslot
    have hpos : 0 < a.output slot.supplier slot.product :=
      (output_eq ht slot.product).symm ▸ (ha.stream _ t ht).steady.output_pos houtput
    cases Classical.em (a.Delivers Rate.enough slot.supplier slot.product (s.demand slot.product * s.mult)) with
    | inl hdelivers => exact hdelivers.covers hD
    | inr hshort =>
      exact covers_of_running ha hD (ih slot hslot hpos hshort) (Rate.kept_mul_le hD (able slot hslot hpos))

/-- Where there is an efficiency, every demand is above nothing also as a double. -/
theorem optimal_ne_zero (ha : a.Built) (hs : a.stream? i = some s) (hp : p ∈ s.recipe.inputProducts)
    (h : a.efficiency i = .ok e) {optimal : Rate} {y : Float} (hoptimal : optimalOf s p = .ok optimal)
    (hy : optimal.throughput = .ok y) : (y == 0.0) = false := by
  rw [efficiency_eq_formula ha.bindsEarlier] at h
  cases hleaf : s.isLeaf with
  | true =>
    rw [(ha.stream i s hs).inputProducts_eq_nil hleaf] at hp
    cases hp
  | false =>
    rw [formula_of_suppliers ha.bindsEarlier hs hleaf] at h
    obtain ⟨_, _, hall, _⟩ := efficiencyBy_eq_ok ha.steady hs h
    obtain ⟨z, _, hz⟩ := hall p hp
    obtain ⟨optimal', F, _, hoptimal', _, hratio, _⟩ := ratioBy_eq_ok ha.steady hs hp hz
    obtain rfl := Except.ok.inj (hoptimal.symm.trans hoptimal')
    obtain ⟨_, y', _, hy', _, hzero⟩ := Rate.ratio_eq_ok hratio
    obtain rfl := Except.ok.inj (hy.symm.trans hy')
    exact hzero

end Arena

end Conveyor
