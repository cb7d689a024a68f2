-- SUMMARY: Where the figures of an arena are modest, every query for an efficiency or a rate has an answer.
import Conveyor.Proofs.Efficiency.Solve
import Conveyor.Proofs.Rate.Amount
import Conveyor.Proofs.Rate.Range

/-!
# Modest figures

Periods, amounts and multipliers have no bound, and the arithmetic on doubles that queries do has one. It
is far away as long as a power of the largest figure is below it: one that grows with the links of the
longest supply chain and with the suppliers of one stream. Each link makes an efficiency smaller by one
power at most, and each raise a multiplier larger by two.
-/

namespace Conveyor

open Binary64

/-- The period of the stream and its amounts per cycle are at most `F`, and it has at most `K` suppliers. -/
structure Stream.Sized (F K : Nat) (s : Stream) : Prop where
  period_le : s.period ≤ F
  required_le : ∀ p, s.recipe.requiredOf p ≤ F
  yield_le : ∀ p, s.recipe.yieldOf p ≤ F
  suppliers_le : s.suppliers.length ≤ K

theorem Stream.sized_iff {F K : Nat} {s : Stream} : s.Sized F K ↔ s.period ≤ F ∧
    (∀ n ∈ s.recipe.inputTotals.values, n ≤ F) ∧ (∀ n ∈ s.recipe.outputTotals.values, n ≤ F) ∧
    s.suppliers.length ≤ K := by
  have hle (t : Table Product Int) : (∀ p, t.getD p 0 ≤ F) ↔ ∀ n ∈ t.values, n ≤ F := by
    constructor
    · intro h n hn
      obtain ⟨p, hp⟩ := Table.mem_values_iff.1 hn
      have hle := h p
      rwa [Table.getD, hp] at hle
    · intro h p
      unfold Table.getD
      cases hp : t.get? p with
      | none => exact Int.natCast_nonneg F
      | some n => exact h n (Table.mem_values_iff.2 ⟨p, hp⟩)
  rw [← hle, ← hle]
  constructor
  · exact fun h => ⟨h.period_le, h.required_le, h.yield_le, h.suppliers_le⟩
  · rintro ⟨hperiod, hrequired, hyield, hsuppliers⟩
    exact ⟨hperiod, hrequired, hyield, hsuppliers⟩

instance (F K : Nat) (s : Stream) : Decidable (s.Sized F K) := decidable_of_iff _ Stream.sized_iff.symm

/-- Figures up to `F` leave room on doubles for chains of `D` links with up to `K` suppliers each. -/
def HasRoom (F D K : Nat) : Prop := (2 * F) ^ (2 * (D + 2) * (K + 1)) ≤ 2 ^ 1000

instance (F D K : Nat) : Decidable (HasRoom F D K) :=
  inferInstanceAs (Decidable ((2 * F) ^ (2 * (D + 2) * (K + 1)) ≤ 2 ^ 1000))

namespace HasRoom

variable {F D K : Nat}

theorem pow_le (h : HasRoom F D K) (hF : 1 ≤ F) {j : Nat} (hj : j ≤ 2 * (D + 2) * (K + 1)) :
    (2 * F : ℚ) ^ j ≤ room := by
  have hle : (2 * F) ^ j ≤ 2 ^ 1000 := (Nat.pow_le_pow_right (by omega) hj).trans h
  have hcast := (Nat.cast_le (α := ℚ)).2 hle
  rw [room]
  rw [Nat.cast_pow, Nat.cast_pow, Nat.cast_mul, Nat.cast_ofNat] at hcast
  exact hcast

/-- Even figures of one need some room for each supplier. -/
theorem suppliers_lt (h : HasRoom F D K) (hF : 1 ≤ F) : K < 1000 := by
  have hpow : 2 ^ (2 * (D + 2) * (K + 1)) ≤ 2 ^ 1000 := (Nat.pow_le_pow_left (by omega) _).trans h
  have hexponent := (Nat.pow_le_pow_iff_right (by decide)).1 hpow
  nlinarith

end HasRoom

/-- So many roundings as there may be suppliers still do not double a value. -/
theorem Binary64.slack_pow_le_two_of_lt {k : Nat} (hk : k ≤ 2 ^ 40) : slack ^ k ≤ 2 := by
  have hcast : (k : ℚ) ≤ 2 ^ 40 := by exact_mod_cast hk
  have hhalf : 1 / 2 ≤ 1 / slack ^ k := by
    refine le_trans ?_ (Arena.one_sub_le_inv_slack k)
    linarith
  exact (one_div_le_one_div two_pos (slack_pow_pos k)).1 hhalf

/-! ## Rates of products -/

namespace Recipe.IsRateOf

variable {n u : Int} {ρ : Rate} {c : ℚ}

theorem fits (hρ : IsRateOf n u ρ) (hn : 0 < n) (hc : 1 ≤ c) (hnc : n ≤ c) (huc : u ≤ c) : ρ.Fits c 1 1 where
  base := by
    rw [hρ.ticks]
    trivial
  stays := by
    rintro ⟨_, hticks, _⟩
    rw [hρ.ticks] at hticks
    cases hticks
  ticks_le := by
    rw [hρ.ticks, pow_one]
    split
    · exact (Int.cast_one (R := ℚ)).trans_le hc
    · exact hnc
  flow_le := by
    have hu : (0 : ℚ) ≤ u := Int.cast_nonneg (hρ.amount ▸ ρ.amount_nonneg)
    have hone : (1 : ℚ) ≤ n := by exact_mod_cast hn
    rw [hρ.flow_eq, pow_one]
    exact (div_le_self hu hone).trans huc

theorem isZero_eq_false (hρ : IsRateOf n u ρ) (hu : 0 < u) : ρ.isZero = false :=
  decide_eq_false fun hzero => Int.ne_of_gt hu (hρ.amount.symm.trans hzero)

end Recipe.IsRateOf

namespace Stream

variable {F K : Nat} {s : Stream} {p : Product}

theorem Built.one_le_period (hs : s.Built) : 1 ≤ s.period := by
  obtain ⟨n, hn⟩ := hs.timed
  rw [period, hn.ticks]
  exact Int.cast_one_le_of_pos hn.pos

namespace Sized

theorem one_le (h : s.Sized F K) (hs : s.Built) : 1 ≤ F := by
  have hle := hs.one_le_period.trans h.period_le
  exact_mod_cast hle

/-- What one copy gives or takes of a product, as a rate. -/
theorem exists_flow (h : s.Sized F K) (hs : s.Built) {u : Int} (hu : u ≤ F) {x : Except Fault Rate}
    (hx : ∀ n, s.recipe.IsTimed n → ∃ ρ, x = .ok ρ ∧ Recipe.IsRateOf n u ρ) :
    ∃ (n : Int) (ρ : Rate), x = .ok ρ ∧ s.period = n ∧ Recipe.IsRateOf n u ρ ∧ ρ.Fits (2 * F) 1 1 ∧ ρ.flow ≤ F := by
  obtain ⟨n, hn⟩ := hs.timed
  obtain ⟨ρ, hρ, hrate⟩ := hx n hn
  have hperiod : s.period = n := by
    rw [period, hn.ticks]
    rfl
  have huF : (u : ℚ) ≤ F := by exact_mod_cast hu
  have hF : (F : ℚ) ≤ 2 * F := le_mul_of_one_le_left (Nat.cast_nonneg F) one_le_two
  have hone : (1 : ℚ) ≤ F := by exact_mod_cast h.one_le hs
  refine ⟨n, ρ, hρ, hperiod, hrate, ?_, ?_⟩
  · exact hrate.fits hn.pos (hone.trans hF) (hperiod.symm.trans_le (h.period_le.trans hF)) (huF.trans hF)
  · rw [hrate.flow_eq, ← hperiod]
    have hunits : (0 : ℚ) ≤ u := Int.cast_nonneg (hrate.amount ▸ ρ.amount_nonneg)
    exact (div_le_self hunits hs.one_le_period).trans huF

theorem exists_outflow (h : s.Sized F K) (hs : s.Built) (p : Product) :
    ∃ (n : Int) (ρ : Rate), s.recipe.outflowOf p = .ok ρ ∧ s.period = n ∧ Recipe.IsRateOf n (s.recipe.yieldOf p) ρ ∧
      ρ.Fits (2 * F) 1 1 ∧ ρ.flow ≤ F :=
  h.exists_flow hs (h.yield_le p) fun _ hn => Recipe.outflowOf_eq_ok hn hs.positive p

theorem exists_inflow (h : s.Sized F K) (hs : s.Built) (p : Product) :
    ∃ (n : Int) (ρ : Rate), s.recipe.inflowOf p = .ok ρ ∧ s.period = n ∧ Recipe.IsRateOf n (s.recipe.requiredOf p) ρ ∧
      ρ.Fits (2 * F) 1 1 ∧ ρ.flow ≤ F :=
  h.exists_flow hs (h.required_le p) fun _ hn => Recipe.inflowOf_eq_ok hn hs.positive p

end Sized

end Stream

namespace Arena

/-! ## What suppliers deliver together -/

section Sums

variable {rate : Nat → Except Fault (Option Rate)} {total : Rate} {us : List Nat} {c : ℚ} {b d f g : Nat}

/-- The flow that a supplier delivers, if it delivers any. -/
def delivered (rate : Nat → Except Fault (Option Rate)) (u : Nat) : ℚ :=
  match rate u with
  | .ok (some ρ) => ρ.flow
  | _ => 0

theorem delivered_eq {u : Nat} {r : Option Rate} (h : rate u = .ok r) :
    delivered rate u = (r.map Rate.flow).getD 0 := by
  unfold delivered
  rw [h]
  cases r <;> rfl

theorem delivered_nonneg {u : Nat} (hrate : ∃ r, rate u = .ok r ∧ ∀ ρ, r = some ρ → ρ.Fits c d g) :
    0 ≤ delivered rate u := by
  obtain ⟨r, hr, hfits⟩ := hrate
  rw [delivered_eq hr]
  cases r with
  | none => exact le_refl 0
  | some ρ => exact (hfits ρ rfl).flow_nonneg

variable (rate us) in
/-- Each rate that is added lengthens the base by its own, and lets the total drift by five roundings. -/
theorem exists_addUp (hc : 2 ≤ c) (htotal : total.Fits c b f) (hb : 1 ≤ b) (hd : 1 ≤ d) (hg : g ≤ f)
    (hrate : ∀ u ∈ us, ∃ r, rate u = .ok r ∧ ∀ ρ, r = some ρ → ρ.Fits c d g)
    (hroom : c ^ (b + d * us.length + (f + 2 * us.length)) ≤ room) :
    ∃ T, addUp rate total us = .ok T ∧ T.Fits c (b + d * us.length) (f + 2 * us.length) ∧
      Within (5 * us.length) T.flow (total.flow + (us.map (delivered rate)).sum) := by
  induction us generalizing total b f with
  | nil => exact ⟨total, rfl, htotal, by simpa using .refl htotal.flow_nonneg⟩
  | cons u us ih =>
    have hc1 : 1 ≤ c := one_le_two.trans hc
    obtain ⟨⟨r, hr, hfits⟩, hrest⟩ := List.forall_mem_cons.1 hrate
    have hlength : b + d * (us.length + 1) = b + d + d * us.length := by ring
    have hlength' : f + 2 * (us.length + 1) = f + 2 + 2 * us.length := by ring
    rw [List.length_cons, hlength, hlength'] at hroom
    have hstep : ∃ next, r.elim (.ok total) total.add = .ok next ∧ next.Fits c (b + d) (f + 2) ∧
        Within 5 next.flow (total.flow + delivered rate u) := by
      rw [delivered_eq hr]
      cases r with
      | none =>
        refine ⟨total, rfl, htotal.mono hc1 (Nat.le_add_right b d) (Nat.le_add_right f 2), ?_⟩
        exact (add_zero total.flow).symm ▸ .refl htotal.flow_nonneg
      | some ρ => exact htotal.exists_add hc (hfits ρ rfl) hb hd hg (Rate.pow_le_room hc1 hroom (by omega))
    obtain ⟨next, hnext, hnextFits, hdrift⟩ := hstep
    obtain ⟨T, hT, hTfits, hTdrift⟩ := ih hnextFits (hb.trans (Nat.le_add_right b d))
      (hg.trans (Nat.le_add_right f 2)) hrest hroom
    refine ⟨T, ?_, hlength ▸ hlength' ▸ hTfits, ?_⟩
    · refine addUp_cons ?_ hT
      unfold addUp
      rw [List.foldlM_cons]
      refine Result.bind_eq_ok.2 ⟨next, Result.bind_eq_ok.2 ⟨r, hr, ?_⟩, rfl⟩
      cases r <;> exact hnext
    · have hsum : 0 ≤ (us.map (delivered rate)).sum := sum_map_nonneg fun v hv => delivered_nonneg (hrest v hv)
      have hall : Within 5 (next.flow + (us.map (delivered rate)).sum)
          (total.flow + delivered rate u + (us.map (delivered rate)).sum) := hdrift.add (.refl hsum)
      rw [List.map_cons, List.sum_cons, ← add_assoc, List.length_cons, Nat.mul_succ]
      exact hTdrift.trans hall

end Sums

/-! ## Modest arenas -/

/-- Copies that stream `i` may be raised to: its consumers may be raised as well, and ask for more then. -/
def allowance (F D : Nat) (a : Arena) (i : Nat) : Nat := F * (2 * F) ^ (2 * (D - a.depth i))

/-- Streams that registration makes have figures up to `F`, up to `K` suppliers and up to `D` links behind
them, at no more copies than they may be raised to. -/
structure Modest (F D K : Nat) (a : Arena) : Prop where
  built : a.Built
  sized : ∀ i s, a.stream? i = some s → s.Sized F K
  depth_le : ∀ i s, a.stream? i = some s → a.depth i ≤ D
  copies_le : ∀ i s, a.stream? i = some s → s.mult ≤ a.allowance F D i

/-- The query has answered an efficiency at which the period of the stream is not stretched beyond all
bounds. -/
def Rated (F : Nat) (a : Arena) (i : Nat) (s : Stream) (x : Except Fault Float) : Prop :=
  ∃ e η, x = .ok e ∧ Stands e η ∧ η ≤ 1 ∧ (η = 0 ∨ s.period ≤ η * s.mult * (2 * F) ^ (a.depth i + 1))

variable {F D K : Nat} {a : Arena} {g : Nat → Except Fault Float} {i u : Nat} {s t : Stream} {p : Product}

theorem realizedBy_eq_none (ht : a.stream? u = some t) {outflow : Rate}
    (houtflow : t.recipe.outflowOf p = .ok outflow) (hzero : outflow.isZero = true) :
    realizedBy g a u p = .ok none := by
  refine Result.bind_eq_ok.2 ⟨t, stream_of_eq_some ht, Result.bind_eq_ok.2 ⟨outflow, houtflow, ?_⟩⟩
  rw [hzero]
  rfl

theorem realizedBy_eq_some (ht : a.stream? u = some t) {outflow stretched ρ : Rate} {e : Float}
    (houtflow : t.recipe.outflowOf p = .ok outflow) (hzero : outflow.isZero = false) (he : g u = .ok e)
    (hstretched : outflow.stretch e = .ok stretched) (htimes : stretched.times t.mult = .ok ρ) :
    realizedBy g a u p = .ok (some ρ) := by
  refine Result.bind_eq_ok.2 ⟨t, stream_of_eq_some ht, Result.bind_eq_ok.2 ⟨outflow, houtflow, ?_⟩⟩
  rw [hzero]
  exact Result.bind_eq_ok.2 ⟨e, he, Result.bind_eq_ok.2 ⟨stretched, hstretched,
    Result.bind_eq_ok.2 ⟨ρ, htimes, rfl⟩⟩⟩

namespace Modest

variable (ha : a.Modest F D K) (hroom : HasRoom F D K)
include ha

theorem one_le (hs : a.stream? i = some s) : 1 ≤ F := (ha.sized i s hs).one_le (ha.built.stream i s hs)

theorem two_le (hs : a.stream? i = some s) : (2 : ℚ) ≤ 2 * F := by
  have hone : (1 : ℚ) ≤ F := by exact_mod_cast ha.one_le hs
  linarith

theorem mult_le (hs : a.stream? i = some s) : (s.mult : ℚ) ≤ F * (2 * F) ^ (2 * (D - a.depth i)) := by
  have hle := (Int.cast_le (R := ℚ)).2 (ha.copies_le i s hs)
  unfold allowance at hle
  push_cast at hle
  exact hle

/-- At full efficiency no period is stretched. -/
theorem period_le_one (hs : a.stream? i = some s) : s.period ≤ 1 * s.mult * (2 * F) ^ (a.depth i + 1) := by
  have hmult := (ha.built.stream i s hs).steady.one_le_mult
  calc s.period ≤ F := (ha.sized i s hs).period_le
    _ ≤ 2 * F := le_mul_of_one_le_left (Nat.cast_nonneg F) one_le_two
    _ ≤ (2 * F) ^ (a.depth i + 1) := le_self_pow₀ (one_le_two.trans (ha.two_le hs)) (by omega)
    _ ≤ 1 * s.mult * (2 * F) ^ (a.depth i + 1) := by
      rw [one_mul]
      exact le_mul_of_one_le_left (by positivity) hmult

/-- All copies of a stream, at twice a power each, are within one power for each raise on the way. -/
theorem mul_mult_le (hs : a.stream? i = some s) {x : ℚ} {j k : Nat} (hx : x ≤ 2 * (2 * F) ^ j)
    (hk : 2 * (D - a.depth i) + j + 1 ≤ k) : x * s.mult ≤ (2 * F) ^ k := by
  have hmult : (0 : ℚ) ≤ s.mult := zero_le_one.trans (ha.built.stream i s hs).steady.one_le_mult
  calc x * s.mult ≤ 2 * (2 * F) ^ j * s.mult := mul_le_mul_of_nonneg_right hx hmult
    _ ≤ 2 * (2 * F) ^ j * (F * (2 * F) ^ (2 * (D - a.depth i))) :=
      mul_le_mul_of_nonneg_left (ha.mult_le hs) (by positivity)
    _ = (2 * F) ^ (2 * (D - a.depth i) + j + 1) := by ring
    _ ≤ (2 * F) ^ k := pow_le_pow_right₀ (one_le_two.trans (ha.two_le hs)) hk

/-- All copies of a stream at the rate of one. -/
theorem exists_copies (hs : a.stream? i = some s) {ρ : Rate} (hρ : ρ.Fits (2 * F) 1 1) :
    ∃ τ, ρ.times s.mult = .ok τ ∧ τ.Fits (2 * F) 1 (2 * D + 2) ∧ τ.flow = ρ.flow * s.mult := by
  have hflow : ρ.flow * s.mult ≤ (2 * F) ^ (2 * D + 2) :=
    ha.mul_mult_le hs (hρ.flow_le.trans (le_mul_of_one_le_left (by positivity) one_le_two)) (by omega)
  obtain ⟨τ, hτ, hfits⟩ := hρ.exists_times (ha.built.stream i s hs).copies hflow
  exact ⟨τ, hτ, hfits, Rate.flow_times hτ⟩

/-- The rate at which all copies of a stream would take a product. -/
theorem exists_optimal (hs : a.stream? i = some s) (hp : p ∈ s.recipe.inputProducts) :
    ∃ inflow optimal, s.recipe.inflowOf p = .ok inflow ∧ inflow.times s.mult = .ok optimal ∧
      optimal.Fits (2 * F) 1 (2 * D + 2) ∧ optimal.isZero = false ∧ optimal.flow * s.period ≤ F * s.mult := by
  have hbuilt := ha.built.stream i s hs
  have hsized := ha.sized i s hs
  obtain ⟨n, inflow, hinflow, hperiod, hrate, hunit, _⟩ := hsized.exists_inflow hbuilt p
  obtain ⟨optimal, htimes, hoptimal, hcopies⟩ := ha.exists_copies hs hunit
  refine ⟨inflow, optimal, hinflow, htimes, hoptimal, ?_, ?_⟩
  · exact Rate.isZero_times (hrate.isZero_eq_false (Recipe.requiredOf_pos hbuilt.positive hp))
      hbuilt.copies htimes
  · have hn : (0 : ℚ) < n := hperiod ▸ hbuilt.steady.period_pos
    have hunits : (s.recipe.requiredOf p : ℚ) ≤ F := by exact_mod_cast hsized.required_le p
    rw [hcopies, hperiod, hrate.flow_eq, mul_right_comm, div_mul_cancel₀ _ hn.ne']
    exact mul_le_mul_of_nonneg_right hunits (zero_le_one.trans hbuilt.steady.one_le_mult)

/-- The rate at which all copies of a stream would give a product, if they give any. -/
theorem exists_capacity (ht : a.stream? u = some t) (p : Product) :
    ∃ outflow capacity, t.recipe.outflowOf p = .ok outflow ∧ outflow.times t.mult = .ok capacity ∧
      capacity.Fits (2 * F) 1 (2 * D + 2) ∧ (capacity.isZero = false → t.mult ≤ F * capacity.flow) := by
  have hbuilt := ha.built.stream u t ht
  have hsized := ha.sized u t ht
  obtain ⟨n, outflow, houtflow, hperiod, hrate, hunit, _⟩ := hsized.exists_outflow hbuilt p
  obtain ⟨capacity, htimes, hcapacity, hcopies⟩ := ha.exists_copies ht hunit
  refine ⟨outflow, capacity, houtflow, htimes, hcapacity, fun hsome => ?_⟩
  have hn : (0 : ℚ) < n := hperiod ▸ hbuilt.steady.period_pos
  have hamount := Rate.amount_pos (Rate.isZero_of_times htimes hsome)
  have hone : 1 ≤ F * outflow.flow := by
    rw [hrate.flow_eq, ← hrate.amount, mul_div_assoc', one_le_div₀ hn, ← hperiod]
    exact hsized.period_le.trans (le_mul_of_one_le_right (Nat.cast_nonneg F) hamount)
  rw [hcopies, ← mul_assoc]
  exact le_mul_of_one_le_left (zero_le_one.trans hbuilt.steady.one_le_mult) hone

/-! ## What one supplier delivers -/

/-- What flows at an efficiency is nothing, or some of a power for each link behind the stream. -/
theorem one_le_delivered (ht : a.stream? u = some t) {outflow stretched : Rate} {n : Int} {η : ℚ}
    (hticks : outflow.ticks = .whole n) (hperiod : t.period = n) (hsome : outflow.isZero = false)
    (hη : η = 0 ∨ t.period ≤ η * t.mult * (2 * F) ^ (a.depth u + 1))
    (hdrift : Within 2 stretched.flow (outflow.flow * η)) (hnonneg : 0 ≤ stretched.flow) :
    stretched.flow * t.mult = 0 ∨ 1 ≤ stretched.flow * t.mult * slack ^ 2 * (2 * F) ^ (a.depth u + 1) := by
  have hn : (0 : ℚ) < n := Int.cast_pos.2 (Rate.whole_pos hticks)
  have hmult := zero_le_one.trans (ha.built.stream u t ht).steady.one_le_mult
  rcases hη with rfl | hη
  · have hnone := hdrift.1
    rw [mul_zero, zero_mul] at hnone
    exact .inl (by rw [le_antisymm hnone hnonneg, zero_mul])
  · right
    have hunits : 1 / (n : ℚ) ≤ outflow.flow := by
      rw [Rate.flow_of_whole hticks]
      exact div_le_div_of_nonneg_right (Rate.amount_pos hsome) hn.le
    have hflow : 0 ≤ outflow.flow := (div_nonneg zero_le_one hn.le).trans hunits
    calc (1 : ℚ) = 1 / n * n := (one_div_mul_cancel hn.ne').symm
      _ ≤ outflow.flow * (η * t.mult * (2 * F) ^ (a.depth u + 1)) :=
        mul_le_mul hunits (hperiod ▸ hη) hn.le hflow
      _ = outflow.flow * η * (t.mult * (2 * F) ^ (a.depth u + 1)) := by ring
      _ ≤ stretched.flow * slack ^ 2 * (t.mult * (2 * F) ^ (a.depth u + 1)) :=
        mul_le_mul_of_nonneg_right hdrift.2 (mul_nonneg hmult (by positivity))
      _ = stretched.flow * t.mult * slack ^ 2 * (2 * F) ^ (a.depth u + 1) := by ring

include hroom

/-- At an efficiency that is not too small, the base of a rate of one copy keeps within its room. -/
theorem exists_stretched (ht : a.stream? u = some t) {outflow : Rate} {n : Int} {e : Float} {η : ℚ}
    (hticks : outflow.ticks = .whole n) (hperiod : t.period = n) (hflow : outflow.flow ≤ F)
    (he : Stands e η) (hone : η ≤ 1) (hη : η = 0 ∨ t.period ≤ η * t.mult * (2 * F) ^ (a.depth u + 1)) :
    ∃ stretched, outflow.stretch e = .ok stretched ∧ stretched.Fits (2 * F) (2 * D + 2) 1 ∧
      Within 2 stretched.flow (outflow.flow * η) := by
  have hc := one_le_two.trans (ha.two_le ht)
  have hn : (0 : ℚ) < n := Int.cast_pos.2 (Rate.whole_pos hticks)
  have hmult := zero_le_one.trans (ha.built.stream u t ht).steady.one_le_mult
  have hdepth := ha.depth_le u t ht
  have hpow := hroom.pow_le (ha.one_le ht) (j := 2 * D + 2) (by nlinarith)
  have hbound : n / η * 2 ≤ (2 * F) ^ (2 * D + 2) := by
    rcases hη with rfl | hη
    · rw [div_zero, zero_mul]
      positivity
    · have hle : n / η ≤ t.mult * (2 * F) ^ (a.depth u + 1) := by
        refine div_le_of_le_mul₀ he.nonneg (by positivity) ?_
        rw [← hperiod]
        exact hη.trans_eq (by ring)
      calc n / η * 2 ≤ 2 * (2 * F) ^ (a.depth u + 1) * t.mult := by linarith
        _ ≤ (2 * F) ^ (2 * D + 2) := ha.mul_mult_le ht (le_refl _) (by omega)
  have hquotient : 0 ≤ n / η := div_nonneg hn.le he.nonneg
  have hlong : (n : ℚ) ≤ room :=
    calc (n : ℚ) ≤ F := hperiod ▸ (ha.sized u t ht).period_le
      _ ≤ 2 * F := le_mul_of_one_le_left (Nat.cast_nonneg F) one_le_two
      _ ≤ (2 * F) ^ (2 * D + 2) := le_self_pow₀ hc (by omega)
      _ ≤ room := hpow
  obtain ⟨stretched, hstretched, hbase, hstays, hticks_le, hdrift⟩ := Rate.exists_stretch hticks he hone hlong
    (.inr ((le_mul_of_one_le_right hquotient one_le_two).trans (hbound.trans hpow)))
  refine ⟨stretched, hstretched, ⟨hbase, hstays, hticks_le.trans (max_le (one_le_pow₀ hc) ?_), ?_⟩, hdrift⟩
  · exact (mul_le_mul_of_nonneg_left (slack_pow_le_two (by decide)) hquotient).trans hbound
  · have hnonneg : 0 ≤ outflow.flow := Rate.flow_nonneg_of_whole hticks
    calc stretched.flow ≤ outflow.flow * η * slack ^ 2 := hdrift.1
      _ ≤ outflow.flow * slack ^ 2 :=
        mul_le_mul_of_nonneg_right (mul_le_of_le_one_right hnonneg hone) (slack_pow_pos 2).le
      _ ≤ F * 2 := mul_le_mul hflow (slack_pow_le_two (by decide)) (slack_pow_pos 2).le (Nat.cast_nonneg F)
      _ = (2 * F) ^ 1 := by ring

/-- A supplier delivers a rate or none. What it delivers is nothing, or some of a power for each link. -/
theorem exists_realizedBy (ht : a.stream? u = some t) (hg : a.Rated F u t (g u)) (p : Product) :
    ∃ r, realizedBy g a u p = .ok r ∧ ∀ ρ, r = some ρ → ρ.Fits (2 * F) (2 * D + 2) (2 * D + 2) ∧
      (ρ.flow = 0 ∨ 1 ≤ ρ.flow * slack ^ 2 * (2 * F) ^ (a.depth u + 1)) := by
  have hbuilt := ha.built.stream u t ht
  have hdepth := ha.depth_le u t ht
  obtain ⟨e, η, he, hη, hone, hsmall⟩ := hg
  obtain ⟨n, outflow, houtflow, hperiod, hrate, _, hflow⟩ := (ha.sized u t ht).exists_outflow hbuilt p
  cases hzero : outflow.isZero with
  | true => exact ⟨none, realizedBy_eq_none ht houtflow hzero, nofun⟩
  | false =>
    have hticks : outflow.ticks = .whole n := by
      rw [hrate.ticks, if_neg]
      rw [← hrate.amount]
      exact of_decide_eq_false hzero
    obtain ⟨stretched, hstretched, hfits, hdrift⟩ :=
      ha.exists_stretched hroom ht hticks hperiod hflow hη hone hsmall
    have hcopies : stretched.flow * t.mult ≤ (2 * F) ^ (2 * D + 2) :=
      ha.mul_mult_le ht (hfits.flow_le.trans (le_mul_of_one_le_left (by positivity) one_le_two)) (by omega)
    obtain ⟨ρ, htimes, hρ⟩ := hfits.exists_times hbuilt.copies hcopies
    refine ⟨some ρ, realizedBy_eq_some ht houtflow hzero he hstretched htimes, ?_⟩
    rintro _ ⟨rfl⟩
    refine ⟨hρ, ?_⟩
    rw [Rate.flow_times htimes]
    exact ha.one_le_delivered ht hticks hperiod hzero hsmall hdrift hfits.flow_nonneg

/-! ## The efficiency of one stream -/

section Efficiency

variable (hs : a.stream? i = some s)
  (hg : ∀ u ∈ s.suppliers, ∃ t, a.stream? u = some t ∧ a.Rated F u t (g u))
include hs hg

/-- What one supplier of a stream delivers is nothing, or some of a power for each link behind the stream. -/
theorem exists_rate (p : Product) (hu : u ∈ s.suppliers) : ∃ r, realizedBy g a u p = .ok r ∧ ∀ ρ, r = some ρ →
    ρ.Fits (2 * F) (2 * D + 2) (2 * D + 2) ∧ (ρ.flow = 0 ∨ 1 ≤ ρ.flow * slack ^ 2 * (2 * F) ^ a.depth i) := by
  obtain ⟨t, ht, hrated⟩ := hg u hu
  obtain ⟨r, hr, hrate⟩ := ha.exists_realizedBy hroom ht hrated p
  refine ⟨r, hr, fun ρ hρ => ⟨(hrate ρ hρ).1, (hrate ρ hρ).2.imp_right fun hle => hle.trans ?_⟩⟩
  have hnonneg := mul_nonneg (hrate ρ hρ).1.flow_nonneg (slack_pow_pos 2).le
  have hdepth := depth_lt ha.built.bindsEarlier (supplies_of_mem hs hu)
  exact mul_le_mul_of_nonneg_left (pow_le_pow_right₀ (one_le_two.trans (ha.two_le hs)) hdepth) hnonneg

theorem one_le_delivered_of_ne {p : Product} (hu : u ∈ s.suppliers)
    (hsome : delivered (fun u => realizedBy g a u p) u ≠ 0) :
    1 ≤ delivered (fun u => realizedBy g a u p) u * slack ^ 2 * (2 * F) ^ a.depth i := by
  obtain ⟨r, hr, hρ⟩ := ha.exists_rate hroom hs hg p hu
  have hdelivered : delivered (fun u => realizedBy g a u p) u = (r.map Rate.flow).getD 0 := delivered_eq hr
  rw [hdelivered] at hsome ⊢
  cases r with
  | none => exact absurd rfl hsome
  | some ρ => exact (hρ ρ rfl).2.resolve_left hsome

/-- What the suppliers of a stream deliver is nothing, or some of a power for each link behind the stream. -/
theorem exists_suppliedBy (p : Product) :
    ∃ T, suppliedBy g a i p = .ok T ∧ T.Fits (2 * F) (1 + (2 * D + 2) * K) (2 * D + 2 + 2 * K) ∧
      (T.flow = 0 ∨ 1 ≤ T.flow * slack ^ (5 * K + 2) * (2 * F) ^ a.depth i) := by
  have hc := ha.two_le hs
  have hc1 := one_le_two.trans hc
  have hlength := (ha.sized i s hs).suppliers_le
  have hfits (u : Nat) (hu : u ∈ s.suppliers) : ∃ r, realizedBy g a u p = .ok r ∧ ∀ ρ, r = some ρ →
      ρ.Fits (2 * F) (2 * D + 2) (2 * D + 2) :=
    (ha.exists_rate hroom hs hg p hu).imp fun r hr => ⟨hr.1, fun ρ hρ => (hr.2 ρ hρ).1⟩
  obtain ⟨T, hT, hTfits, hdrift⟩ := exists_addUp (fun u => realizedBy g a u p) s.suppliers hc
    (Rate.fits_zero (2 * F) 1 (2 * D + 2) hc1) (le_refl 1) (by omega) (le_refl _) hfits
    (hroom.pow_le (ha.one_le hs) (by nlinarith))
  refine ⟨T, suppliedBy_eq hs ▸ hT, hTfits.mono hc1 (by gcongr) (by omega), ?_⟩
  rw [Rate.flow_zero, zero_add] at hdrift
  by_cases hnone : ∀ u ∈ s.suppliers, delivered (fun u => realizedBy g a u p) u = 0
  · left
    rw [List.sum_eq_zero (List.forall_mem_map.2 hnone)] at hdrift
    exact le_antisymm (hdrift.1.trans_eq (zero_mul _)) hTfits.flow_nonneg
  -- One supplier that delivers is enough for the bound, as the others only add to it.
  · right
    push Not at hnone
    obtain ⟨u, hu, hsome⟩ := hnone
    have hsum := List.single_le_sum (List.forall_mem_map.2 fun v hv => delivered_nonneg (hfits v hv)) _
      (List.mem_map_of_mem (f := delivered fun u => realizedBy g a u p) hu)
    have hpos : (0 : ℚ) ≤ (2 * F) ^ a.depth i := by positivity
    calc 1 ≤ delivered (fun u => realizedBy g a u p) u * slack ^ 2 * (2 * F) ^ a.depth i :=
          ha.one_le_delivered_of_ne hroom hs hg hu hsome
      _ ≤ T.flow * slack ^ (5 * s.suppliers.length) * slack ^ 2 * (2 * F) ^ a.depth i :=
        mul_le_mul_of_nonneg_right
          (mul_le_mul_of_nonneg_right (hsum.trans hdrift.2) (slack_pow_pos 2).le) hpos
      _ = T.flow * slack ^ (5 * s.suppliers.length + 2) * (2 * F) ^ a.depth i := by ring
      _ ≤ T.flow * slack ^ (5 * K + 2) * (2 * F) ^ a.depth i := by
        refine mul_le_mul_of_nonneg_right (mul_le_mul_of_nonneg_left ?_ hTfits.flow_nonneg) hpos
        exact pow_le_pow_right₀ one_le_slack (by omega)

/-- The ratio of what is supplied to what is ideally consumed, for a product that is consumed. -/
theorem exists_ratioBy (hp : p ∈ s.recipe.inputProducts) :
    ∃ z w, ratioBy g a i s p = .ok (some z) ∧ Stands z w ∧
      (w = 0 ∨ s.period ≤ w * s.mult * (2 * F) ^ (a.depth i + 1)) := by
  have hbuilt := ha.built.stream i s hs
  have hF := ha.one_le hs
  have hc := one_le_two.trans (ha.two_le hs)
  obtain ⟨inflow, optimal, hinflow, htimes, hoptimal, hsome, hunits⟩ := ha.exists_optimal hs hp
  obtain ⟨T, hT, hTfits, hTflow⟩ := ha.exists_suppliedBy hroom hs hg p
  obtain ⟨z, w, hz, hw, hdrift⟩ := hTfits.exists_ratio hc hoptimal hsome (hroom.pow_le hF (by
    rw [max_eq_left (by omega), max_eq_left (by omega)]
    nlinarith))
  refine ⟨z, w, ?_, hw, ?_⟩
  · refine Result.bind_eq_ok.2 ⟨inflow, hinflow, Result.bind_eq_ok.2 ⟨optimal, htimes, ?_⟩⟩
    rw [hsome]
    exact Result.bind_eq_ok.2 ⟨T, hT, Result.bind_eq_ok.2 ⟨z, hz, rfl⟩⟩
  · rcases hTflow with hzero | hTflow
    · rw [hzero, zero_div] at hdrift
      exact .inl (le_antisymm (hdrift.1.trans_eq (zero_mul _)) hw.nonneg)
    · right
      have hshare := hdrift.2
      rw [div_le_iff₀ (hoptimal.flow_pos hsome)] at hshare
      have hK := hroom.suppliers_lt hF
      have hperiod := hbuilt.steady.period_pos.le
      calc s.period ≤ s.period * (T.flow * slack ^ (5 * K + 2) * (2 * F) ^ a.depth i) :=
            le_mul_of_one_le_right hperiod hTflow
        _ ≤ s.period * (w * slack ^ 5 * optimal.flow * slack ^ (5 * K + 2) * (2 * F) ^ a.depth i) := by
          gcongr
          exact (slack_pow_pos _).le
        _ = w * (slack ^ (5 * K + 7) * (optimal.flow * s.period)) * (2 * F) ^ a.depth i := by ring
        _ ≤ w * (2 * (F * s.mult)) * (2 * F) ^ a.depth i := by
          refine mul_le_mul_of_nonneg_right (mul_le_mul_of_nonneg_left ?_ hw.nonneg) (by positivity)
          exact mul_le_mul (slack_pow_le_two_of_lt (by omega)) hunits
            (mul_nonneg hoptimal.flow_nonneg hperiod) two_pos.le
        _ = w * s.mult * (2 * F) ^ (a.depth i + 1) := by ring

/-- The efficiency of a stream is the least of its ratios, or one. -/
theorem rated_efficiencyBy (hleaf : s.isLeaf = false) : a.Rated F i s (efficiencyBy g a i s) := by
  have hratio (p : Product) (hp : p ∈ s.recipe.inputProducts) := ha.exists_ratioBy hroom hs hg hp
  obtain ⟨ratios, hratios⟩ := Result.exists_mapM fun p hp =>
    let ⟨z, _, hz, _⟩ := hratio p hp
    ⟨some z, hz⟩
  have hok : efficiencyBy g a i s = .ok (leastRatio (ratios.filterMap id)) :=
    Result.bind_eq_ok.2 ⟨ratios, hratios, rfl⟩
  obtain ⟨xs, hxs, hall, hsome⟩ := efficiencyBy_eq_ok ha.built.steady hs hok
  have hstands (x : Float) (hx : x ∈ xs) :
      ∃ w, Stands x w ∧ (w = 0 ∨ s.period ≤ w * s.mult * (2 * F) ^ (a.depth i + 1)) := by
    obtain ⟨p, hp, hx⟩ := hsome x hx
    obtain ⟨z, w, hz, hw⟩ := hratio p hp
    obtain rfl := Option.some.inj (Except.ok.inj (hx.symm.trans hz))
    exact ⟨w, hw⟩
  obtain ⟨p, hp⟩ := (ha.built.stream i s hs).exists_inputProduct hleaf
  obtain ⟨z, hz, _⟩ := hall p hp
  obtain ⟨η, hη, hone, _, hleast⟩ := stands_leastRatio (List.ne_nil_of_mem hz) fun x hx =>
    let ⟨w, hw, _⟩ := hstands x hx
    ⟨w, hw.size⟩
  refine ⟨_, η, hok.trans (congrArg _ hxs), hη, hone, ?_⟩
  rcases hone.eq_or_lt with rfl | hless
  · exact .inr (ha.period_le_one hs)
  · obtain ⟨x, hx, hxη⟩ := hleast hless
    obtain ⟨w, hw, hbound⟩ := hstands x hx
    exact hxη.unique hw ▸ hbound

end Efficiency

/-! ## Queries -/

theorem rated_formula (hs : a.stream? i = some s) : a.Rated F i s (a.formula i) := by
  induction i using Nat.strong_induction_on generalizing s with
  | _ i ih =>
  cases hleaf : s.isLeaf with
  | true => exact ⟨1.0, 1, formula_of_isLeaf hs hleaf, stands_one, le_refl 1, .inr (ha.period_le_one hs)⟩
  | false =>
    rw [formula_of_suppliers ha.built.bindsEarlier hs hleaf]
    refine ha.rated_efficiencyBy hroom hs (fun u hu => ?_) hleaf
    have hlt := ha.built.bindsEarlier.lt (supplies_of_mem hs hu)
    have hsize : u < a.size := hlt.trans (List.getElem?_eq_some_iff.1 hs).1
    exact ⟨_, List.getElem?_eq_getElem hsize, ih u hlt (List.getElem?_eq_getElem hsize)⟩

theorem rated_efficiency (hs : a.stream? i = some s) : a.Rated F i s (a.efficiency i) :=
  efficiency_eq_formula ha.built.bindsEarlier i ▸ ha.rated_formula hroom hs

theorem exists_rateOf (hs : a.stream? i = some s) (p : Product) :
    ∃ r, a.rateOf i p = .ok r ∧ ∀ ρ, r = some ρ → ρ.Fits (2 * F) (2 * D + 2) (2 * D + 2) := by
  rw [rateOf_eq]
  obtain ⟨r, hr, hfits⟩ := ha.exists_realizedBy hroom hs (ha.rated_efficiency hroom hs) p
  exact ⟨r, hr, fun ρ hρ => (hfits ρ hρ).1⟩

end Modest

end Arena

end Conveyor
