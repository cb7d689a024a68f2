-- SUMMARY: Rates over whole bases add up to one rate in any order and grouping, and copies and efficiencies commute.
import Conveyor.Rate.Operand
import Conveyor.Proofs.Rate.Amount
import Conveyor.Proofs.Rate.Range
import Mathlib.Algebra.GCDMonoid.Multiset
import Mathlib.Algebra.GCDMonoid.Nat

/-!
# Rates over whole bases

An addition takes one of several ways, by which of the two rates is zero and by how their bases relate.
Over whole bases all of them lead to the same rate: what flows adds up without loss, over the least base
that all bases divide. A zero rate needs no base, so its own does not count. So neither the order nor
the grouping of many additions shows in the sum.
-/

namespace Conveyor

open Binary64
open Float.Model (UnpackedFloat)

variable {x e : Float} {m n k : Int}

/-! ## Integers that have a double -/

/-- Below half the limit of the doubles there is room for a rounding. -/
theorem exists_toDouble_of_lt (hn : 0 ≤ n) (h : n < 2 ^ 1023) :
    ∃ x w, toDouble n = .ok x ∧ Stands x w ∧ Near w n := by
  obtain ⟨k, rfl⟩ := Int.eq_ofNat_of_zero_le hn
  have hk : (k : ℚ) < 2 ^ 1023 := by exact_mod_cast h
  have hbound : (k : ℚ) * (1 + 1 / 2 ^ 53) < limit := by
    have hlimit : limit = 2 ^ 1023 * 2 := by rw [limit, ← pow_succ]
    rw [hlimit]
    exact mul_lt_mul'' hk (by norm_num) (Nat.cast_nonneg k) (by norm_num)
  obtain ⟨hfinite, w, hw, hnear⟩ := finite?_of_lt (rounded_ofInt k) hbound
  refine ⟨_, w, ?_, hw, hnear⟩
  unfold toDouble ofInt?
  rw [hfinite]

/-- A double that stands for an integer compares as equal to it. -/
theorem Binary64.Stands.compareInt_eq (h : Stands x n) : compareInt n x = some .eq := by
  obtain ⟨r, hr, hvalue⟩ := h.exists_fraction
  have hden : (r.den : ℚ) ≠ 0 := by exact_mod_cast r.den_pos.ne'
  have hnum : n * r.den = r.num := by exact_mod_cast ((div_eq_iff hden).1 hvalue).symm
  have hcompare : compareInt n x = (fraction? x).map fun r => compare (n * r.den) r.num := by
    unfold compareInt
    rcases h.digits with ⟨s, hu, _⟩ | ⟨m, e, hm, hu, _⟩ <;> rw [hu]
  rw [hcompare, hr, Option.map_some, compare_eq_iff_eq.2 hnum]

namespace Rate

variable {r s t ρ σ : Rate} {rs ss : List Rate}

/-! ## Whole bases -/

/-- The tick base is the integer `n`, held as an integer or as a double. -/
def IsOver (r : Rate) (n : Int) : Prop := r.ticks.whole? = some n

instance (r : Rate) (n : Int) : Decidable (r.IsOver n) := inferInstanceAs (Decidable (r.ticks.whole? = some n))

/-- The tick base as an integer, if it is one. -/
def base (r : Rate) : Nat := (r.ticks.whole?.getD 1).toNat

/-- The base that the rate needs; a zero rate needs none. -/
def span (r : Rate) : Nat := if r.isZero then 1 else r.base

/-- A tick base that is held as a double and is an integer stands for it. -/
theorem IsOver.stands (h : r.IsOver n) (hticks : r.ticks = .real x) : Stands x n := by
  rw [IsOver, hticks] at h
  have hvalue := Number.value_eq_of_whole? h
  suffices hstands : ∃ q, Stands x q by
    obtain ⟨q, hq⟩ := hstands
    exact (hq.value_eq.symm.trans hvalue) ▸ hq
  have hpos : ¬ x ≤ 0.0 := by
    have := r.ticks_pos
    rwa [hticks] at this
  change (fraction? x).bind Fraction.whole? = some n at h
  unfold fraction? at h
  unfold Stands
  cases hu : x.toModel.unpack with
  | notANumber => rw [hu] at h; cases h
  | infinity s => rw [hu] at h; cases h
  | zero s => exact ⟨0, .zero s⟩
  | finite s m e hm =>
    cases s with
    | positive => exact ⟨_, .finite m e hm⟩
    | negative =>
      have hle : x ≤ 0.0 ↔ UnpackedFloat.le x.toModel.unpack (0.0 : Float).toModel.unpack = true := decide_eq_true_iff
      rw [hu] at hle
      exact absurd (hle.2 rfl) hpos

namespace IsOver

theorem held (h : r.IsOver n) : r.ticks = .whole n ∨ ∃ x, r.ticks = .real x ∧ Stands x n := by
  cases hticks : r.ticks with
  | whole m =>
    rw [IsOver, hticks] at h
    exact .inl (congrArg _ (Option.some.inj h))
  | real x => exact .inr ⟨x, rfl, h.stands hticks⟩

theorem value_eq (h : r.IsOver n) : r.ticks.value = n := Number.value_eq_of_whole? h

theorem isBase (h : r.IsOver n) : r.ticks.IsBase := by
  rcases h.held with hticks | ⟨x, hticks, hx⟩ <;> rw [hticks]
  · trivial
  · exact ⟨_, hx.size⟩

theorem pos (h : r.IsOver n) : 0 < n := by
  rcases h.held with hticks | ⟨x, hticks, hx⟩
  · exact whole_pos hticks
  · rcases flow_of_real hticks h.isBase with ⟨τ, hτ, hpos, _⟩ | ⟨hinfinite, _⟩
    · rw [hτ.unique hx] at hpos
      exact_mod_cast hpos
    · exact absurd hinfinite hx.not_isInfinite

theorem base_eq (h : r.IsOver n) : (r.base : Int) = n := by
  have hpos := h.pos
  rw [IsOver] at h
  rw [base, h]
  exact Int.toNat_of_nonneg hpos.le

theorem flow_eq (h : r.IsOver n) : r.flow = r.amount / n := by rw [flow, h.value_eq]

theorem flow_nonneg (h : r.IsOver n) : 0 ≤ r.flow := by
  rw [h.flow_eq]
  exact div_nonneg (Int.cast_nonneg r.amount_nonneg) (Int.cast_nonneg h.pos.le)

theorem flow_pos (h : r.IsOver n) (hr : r.isZero = false) : 0 < r.flow := by
  rw [h.flow_eq]
  exact div_pos (one_pos.trans_le (amount_pos hr)) (Int.cast_pos.2 h.pos)

theorem amount_eq (h : r.IsOver n) : (r.amount : ℚ) = r.flow * n := by
  rw [h.flow_eq, div_mul_cancel₀ _ (Int.cast_ne_zero.2 h.pos.ne')]

/-- Bases compare as the integers that they are, however they are held. -/
theorem same_iff (hr : r.IsOver m) (hs : s.IsOver n) : r.ticks.same s.ticks = true ↔ m = n := by
  constructor
  · intro h
    have hvalue := Number.value_eq_of_same hr.isBase hs.isBase h
    rw [hr.value_eq, hs.value_eq] at hvalue
    exact Int.cast_injective hvalue
  · rintro rfl
    refine decide_eq_true ?_
    rcases hr.held with hrticks | ⟨x, hrticks, hx⟩ <;> rcases hs.held with hsticks | ⟨y, hsticks, hy⟩ <;>
      rw [hrticks, hsticks]
    · exact congrArg some (compare_eq_iff_eq.2 rfl)
    · exact hy.compareInt_eq
    · exact congrArg (Option.map Ordering.swap) hx.compareInt_eq
    · change (if x < y then some .lt else if y < x then some .gt else if x == y then some .eq else none :
        Option Ordering) = _
      rw [if_neg ((lt_iff hx.size hy.size).not.2 (lt_irrefl _)), if_neg ((lt_iff hy.size hx.size).not.2 (lt_irrefl _)),
        if_pos ((beq_iff hx.size hy.size).2 rfl)]

theorem exists_double (h : r.IsOver n) (hn : n < 2 ^ 1023) :
    ∃ x w, r.ticks.double = .ok x ∧ Stands x w ∧ Near w n := by
  rcases h.held with hticks | ⟨x, hticks, hx⟩ <;> rw [hticks]
  · exact exists_toDouble_of_lt h.pos.le hn
  · exact ⟨x, n, rfl, hx, .refl _⟩

theorem integer?_eq (h : r.IsOver n) (hn : n < 2 ^ 1023) : r.ticks.integer? = .ok (some n) := by
  obtain ⟨x, _, hx, _⟩ := h.exists_double hn
  exact Result.bind_eq_ok.2 ⟨x, hx, congrArg _ h⟩

theorem wholeBases?_eq (hr : r.IsOver m) (hs : s.IsOver n) (hm : m < 2 ^ 1023) (hn : n < 2 ^ 1023) :
    r.wholeBases? s = .ok (some (m, n)) :=
  Result.bind_eq_ok.2 ⟨_, hr.integer?_eq hm, Result.bind_eq_ok.2 ⟨_, hs.integer?_eq hn, rfl⟩⟩

end IsOver

theorem base_pos (r : Rate) : 0 < r.base := by
  cases h : r.ticks.whole? with
  | none => simp [base, h]
  | some n =>
    have hover : r.IsOver n := h
    have := hover.base_eq
    have := hover.pos
    omega

theorem lcm_base (hr : r.IsOver m) (hs : s.IsOver n) : Nat.lcm r.base s.base = Int.lcm m n := by
  rw [← hr.base_eq, ← hs.base_eq]
  rfl

/-- Over whole bases, rates are the same if as much flows at both, over the same base. -/
theorem same_of_flow (hr : r.IsOver n) (hs : s.IsOver n) (h : r.flow = s.flow) : r.same s = true := by
  have hamount : (r.amount : ℚ) = s.amount := by rw [hr.amount_eq, hs.amount_eq, h]
  rw [same, (hr.same_iff hs).2 rfl, decide_eq_true (Int.cast_injective hamount)]
  rfl

/-! ## Adding two rates -/

/-- Which way an addition takes is up to the bases: both amounts are taken so many times, over one base. -/
theorem exists_add_eq_make (hr : r.IsOver m) (hs : s.IsOver n) (hbase : Int.lcm m n < 2 ^ 1023) :
    ∃ (u v : Int) (b : Number), 0 < u ∧ 0 < v ∧ u * m = Int.lcm m n ∧ v * n = Int.lcm m n ∧
      b.whole? = some (Int.lcm m n : Int) ∧ b.IsPositive ∧
      ∀ ρ σ : Rate, ρ.ticks = r.ticks → σ.ticks = s.ticks → ρ.isZero = false → σ.isZero = false →
        ρ.add σ = make (ρ.amount * u + σ.amount * v) b := by
  have hlcm : (0 : Int) < Int.lcm m n := Int.natCast_pos.2 (Int.lcm_pos hr.pos.ne' hs.pos.ne')
  have hbound : (Int.lcm m n : Int) < 2 ^ 1023 := by exact_mod_cast hbase
  cases hsame : r.ticks.same s.ticks with
  | true =>
    obtain rfl := (hr.same_iff hs).1 hsame
    have hself : (Int.lcm m m : Int) = m := by rw [Int.lcm_self, Int.natAbs_of_nonneg hr.pos.le]
    rw [hself]
    refine ⟨1, 1, r.ticks, one_pos, one_pos, one_mul m, one_mul m, hr, r.ticks_pos, fun ρ σ hρ hσ hρ0 hσ0 => ?_⟩
    rw [add, hρ0, hσ0, hρ, hσ, hsame, mul_one, mul_one]
    rfl
  | false =>
    have hm := Int.le_of_dvd hlcm (Int.dvd_lcm_left m n)
    have hn := Int.le_of_dvd hlcm (Int.dvd_lcm_right m n)
    refine ⟨Int.lcm m n / m, Int.lcm m n / n, .whole (Int.lcm m n),
      Int.ediv_pos_of_pos_of_dvd hlcm hr.pos.le (Int.dvd_lcm_left m n),
      Int.ediv_pos_of_pos_of_dvd hlcm hs.pos.le (Int.dvd_lcm_right m n),
      Int.ediv_mul_cancel (Int.dvd_lcm_left m n), Int.ediv_mul_cancel (Int.dvd_lcm_right m n), rfl, hlcm,
      fun ρ σ hρ hσ hρ0 hσ0 => ?_⟩
    have hbases : ρ.wholeBases? σ = .ok (some (m, n)) :=
      IsOver.wholeBases?_eq (by rw [IsOver, hρ]; exact hr) (by rw [IsOver, hσ]; exact hs)
        (hm.trans_lt hbound) (hn.trans_lt hbound)
    rw [add, hρ0, hσ0, hρ, hσ, hsame, hbases]
    rfl

theorem add_of_isZero_right (h : s.isZero = true) : r.add s = .ok r := if_pos h

theorem add_of_isZero_left (hr : r.isZero = true) (hs : s.isZero = false) : r.add s = .ok s := by
  rw [add, hr, hs]
  rfl

theorem span_of_isZero (h : r.isZero = true) : r.span = 1 := if_pos h

theorem span_eq_base (h : r.isZero = false) : r.span = r.base := if_neg (Bool.eq_false_iff.1 h)

theorem span_dvd_base (r : Rate) : r.span ∣ r.base := by
  cases h : r.isZero with
  | true => exact (span_of_isZero h).symm ▸ one_dvd _
  | false => exact (span_eq_base h).dvd

/-- Over whole bases nothing is lost, and the base of the sum is the least one that both need. -/
theorem exists_add_over (hr : r.IsOver m) (hs : s.IsOver n) (hbase : Nat.lcm r.span s.span < 2 ^ 1023) :
    ∃ t, r.add s = .ok t ∧ (∃ k, t.IsOver k) ∧ t.flow = r.flow + s.flow ∧ t.span = Nat.lcm r.span s.span := by
  cases hs0 : s.isZero with
  | true =>
    refine ⟨r, add_of_isZero_right hs0, ⟨m, hr⟩, ?_, ?_⟩
    · rw [flow_of_isZero hs0, add_zero]
    · rw [span_of_isZero hs0, Nat.lcm_one_right]
  | false =>
    cases hr0 : r.isZero with
    | true =>
      refine ⟨s, add_of_isZero_left hr0 hs0, ⟨n, hs⟩, ?_, ?_⟩
      · rw [flow_of_isZero hr0, zero_add]
      · rw [span_of_isZero hr0, Nat.lcm_one_left]
    | false =>
      rw [span_eq_base hr0, span_eq_base hs0, lcm_base hr hs] at hbase ⊢
      obtain ⟨u, v, b, hupos, hvpos, hu, hv, hb, hpos, hadd⟩ := exists_add_eq_make hr hs hbase
      have hamount : 0 < r.amount * u + s.amount * v :=
        Int.add_pos (Int.mul_pos (amount_pos_iff.2 hr0) hupos) (Int.mul_pos (amount_pos_iff.2 hs0) hvpos)
      let t : Rate := ⟨_, b, hamount.le, hpos⟩
      have ht : t.IsOver (Int.lcm m n) := hb
      refine ⟨t, (hadd r s rfl rfl hr0 hs0).trans (make_eq_ok t), ⟨_, ht⟩, ?_, ?_⟩
      · have hm : (m : ℚ) ≠ 0 := Int.cast_ne_zero.2 hr.pos.ne'
        have hn : (n : ℚ) ≠ 0 := Int.cast_ne_zero.2 hs.pos.ne'
        have hl : ((Int.lcm m n : Int) : ℚ) ≠ 0 := Int.cast_ne_zero.2 ht.pos.ne'
        have hum : (u : ℚ) * m = (Int.lcm m n : Int) := by exact_mod_cast hu
        have hvn : (v : ℚ) * n = (Int.lcm m n : Int) := by exact_mod_cast hv
        rw [ht.flow_eq, hr.flow_eq, hs.flow_eq, div_add_div _ _ hm hn, div_eq_div_iff hl (mul_ne_zero hm hn)]
        change ((r.amount * u + s.amount * v : Int) : ℚ) * _ = _
        push_cast
        linear_combination (r.amount : ℚ) * n * hum + (s.amount : ℚ) * m * hvn
      · rw [span_eq_base (amount_pos_iff.1 hamount)]
        exact_mod_cast ht.base_eq

/-! ## Adding many rates -/

/-- The least base that the bases of all rates but the zero ones divide. -/
def commonBase (rs : List Rate) : Nat := (((rs.filter (!·.isZero)).map base : List Nat) : Multiset Nat).lcm

theorem commonBase_append (rs ss : List Rate) : commonBase (rs ++ ss) = Nat.lcm (commonBase rs) (commonBase ss) := by
  unfold commonBase
  rw [List.filter_append, List.map_append, ← Multiset.coe_add, Multiset.lcm_add]
  rfl

theorem commonBase_singleton (r : Rate) : commonBase [r] = r.span := by
  cases h : r.isZero <;> simp [commonBase, span, h]

theorem commonBase_perm (h : rs.Perm ss) : commonBase rs = commonBase ss :=
  congrArg Multiset.lcm (Multiset.coe_eq_coe.2 ((h.filter _).map _))

theorem base_dvd_commonBase (hr : r ∈ rs) (h : r.isZero = false) : r.base ∣ commonBase rs :=
  Multiset.dvd_lcm (Multiset.mem_coe.2 (List.mem_map_of_mem (List.mem_filter.2 ⟨hr, by rw [h]; rfl⟩)))

theorem commonBase_dvd {l : Nat} (h : ∀ r ∈ rs, r.base ∣ l) : commonBase rs ∣ l := by
  refine Multiset.lcm_dvd.2 fun n hn => ?_
  obtain ⟨r, hr, rfl⟩ := List.mem_map.1 (Multiset.mem_coe.1 hn)
  exact h r (List.mem_filter.1 hr).1

theorem commonBase_pos (rs : List Rate) : 0 < commonBase rs := by
  refine Nat.pos_of_ne_zero fun hzero => ?_
  obtain ⟨r, _, hr⟩ := List.mem_map.1 (Multiset.mem_coe.1 ((Multiset.lcm_eq_zero_iff _).1 hzero))
  exact (base_pos r).ne' hr

/-- The amounts of all rates over the common base, added. -/
def merged (rs : List Rate) : Rate where
  amount := (rs.map fun r : Rate => r.amount * ((commonBase rs / r.base : Nat) : Int)).sum
  ticks := .whole (commonBase rs)
  amount_nonneg := List.sum_nonneg fun n hn => by
    obtain ⟨r, _, rfl⟩ := List.mem_map.1 hn
    exact Int.mul_nonneg r.amount_nonneg (Int.natCast_nonneg _)
  ticks_pos := Int.natCast_pos.2 (commonBase_pos rs)

theorem isOver_merged (rs : List Rate) : (merged rs).IsOver (commonBase rs) := rfl

theorem amount_over_commonBase (hr : r ∈ rs) (hn : r.IsOver n) :
    ((r.amount * (commonBase rs / r.base : Nat) : Int) : ℚ) = r.flow * commonBase rs := by
  cases hzero : r.isZero with
  | true =>
    rw [flow_of_isZero hzero, zero_mul, show r.amount = 0 from of_decide_eq_true hzero, Int.zero_mul, Int.cast_zero]
  | false =>
    have hbase : (r.base : ℚ) = n := by exact_mod_cast hn.base_eq
    rw [hn.flow_eq, ← hbase, Int.cast_mul, Int.cast_natCast,
      Nat.cast_div (base_dvd_commonBase hr hzero) (Nat.cast_ne_zero.2 (base_pos r).ne')]
    ring

theorem flow_merged (h : ∀ r ∈ rs, ∃ n, r.IsOver n) : (merged rs).flow = (rs.map flow).sum := by
  have hbase : (commonBase rs : ℚ) ≠ 0 := Nat.cast_ne_zero.2 (commonBase_pos rs).ne'
  have hamount : ((merged rs).amount : ℚ) = (rs.map flow).sum * commonBase rs := by
    rw [← List.sum_map_mul_right, merged, Int.cast_list_sum, List.map_map]
    refine congrArg _ (List.map_congr_left fun r hr => ?_)
    obtain ⟨n, hn⟩ := h r hr
    exact amount_over_commonBase hr hn
  rw [flow, hamount]
  exact mul_div_cancel_right₀ _ hbase

/-- The rate is what the rates come to together: all that flows, over the base that they need. -/
structure ComesTo (rs : List Rate) (ρ : Rate) : Prop where
  whole : ∃ n, ρ.IsOver n
  flow : ρ.flow = (rs.map Rate.flow).sum
  span : ρ.span = commonBase rs

namespace ComesTo

theorem zero : ComesTo [] Rate.zero := ⟨⟨1, rfl⟩, flow_zero, rfl⟩

theorem single (h : r.IsOver n) : ComesTo [r] r where
  whole := ⟨n, h⟩
  flow := (List.sum_singleton).symm
  span := (commonBase_singleton r).symm

theorem perm (h : ComesTo rs ρ) (hperm : rs.Perm ss) : ComesTo ss ρ where
  whole := h.whole
  flow := h.flow.trans (hperm.map _).sum_eq
  span := h.span.trans (commonBase_perm hperm)

theorem add (hρ : ComesTo rs ρ) (hσ : ComesTo ss σ) (hbase : commonBase (rs ++ ss) < 2 ^ 1023) :
    ∃ τ, ρ.add σ = .ok τ ∧ ComesTo (rs ++ ss) τ := by
  obtain ⟨m, hm⟩ := hρ.whole
  obtain ⟨n, hn⟩ := hσ.whole
  rw [commonBase_append, ← hρ.span, ← hσ.span] at hbase
  obtain ⟨τ, hτ, hwhole, hflow, hspan⟩ := exists_add_over hm hn hbase
  refine ⟨τ, hτ, hwhole, ?_, ?_⟩
  · rw [hflow, hρ.flow, hσ.flow, List.map_append, List.sum_append]
  · rw [hspan, hρ.span, hσ.span, commonBase_append]

/-- Added one by one to what came before, the rates come to all of them together. -/
theorem foldlM (hρ : ComesTo ss ρ) (hrs : ∀ r ∈ rs, ∃ n, r.IsOver n) (hbase : commonBase (ss ++ rs) < 2 ^ 1023) :
    ∃ τ, rs.foldlM Rate.add ρ = .ok τ ∧ ComesTo (ss ++ rs) τ := by
  induction rs generalizing ss ρ with
  | nil => exact ⟨ρ, rfl, (List.append_nil ss).symm ▸ hρ⟩
  | cons r rs ih =>
    rw [List.append_cons] at hbase ⊢
    have hfirst : commonBase (ss ++ [r]) < 2 ^ 1023 := by
      refine lt_of_le_of_lt (Nat.le_of_dvd (commonBase_pos _) ?_) hbase
      rw [commonBase_append (ss ++ [r])]
      exact Nat.dvd_lcm_left _ _
    obtain ⟨n, hn⟩ := hrs r List.mem_cons_self
    obtain ⟨τ, hτ, hcomes⟩ := hρ.add (single hn) hfirst
    obtain ⟨υ, hυ, htotal⟩ := ih hcomes (fun s hs => hrs s (List.mem_cons_of_mem r hs)) hbase
    refine ⟨υ, ?_, htotal⟩
    rw [List.foldlM_cons, hτ]
    exact hυ

/-- What is not zero comes to the merged rate, held as an integer or as a double. -/
theorem same_merged (hρ : ComesTo rs ρ) (hrs : ∀ r ∈ rs, ∃ n, r.IsOver n) (hsome : ∃ r ∈ rs, r.isZero = false) :
    ρ.same (merged rs) = true := by
  obtain ⟨n, hn⟩ := hρ.whole
  have hflow : 0 < ρ.flow := by
    obtain ⟨r, hr, hr0⟩ := hsome
    have hnonneg : ∀ q ∈ rs.map Rate.flow, 0 ≤ q := by
      intro q hq
      obtain ⟨s, hs, rfl⟩ := List.mem_map.1 hq
      obtain ⟨k, hk⟩ := hrs s hs
      exact hk.flow_nonneg
    obtain ⟨k, hk⟩ := hrs r hr
    rw [hρ.flow]
    exact (hk.flow_pos hr0).trans_le (List.single_le_sum hnonneg _ (List.mem_map_of_mem hr))
  have hρ0 : ρ.isZero = false := Bool.eq_false_iff.2 fun hzero => hflow.ne' (flow_of_isZero hzero)
  have hbase : n = commonBase rs := by rw [← hρ.span, span_eq_base hρ0, hn.base_eq]
  exact same_of_flow (hbase ▸ hn) (isOver_merged rs) (hρ.flow.trans (flow_merged hrs).symm)

end ComesTo

/-- Additions in some grouping. -/
inductive Grouping
  | one (r : Rate)
  | both (left right : Grouping)

namespace Grouping

/-- The rates that are added, from left to right. -/
def rates : Grouping → List Rate
  | one r => [r]
  | both left right => left.rates ++ right.rates

def total : Grouping → Except Fault Rate
  | one r => .ok r
  | both left right => do
    let x ← left.total
    let y ← right.total
    x.add y

theorem comesTo_total (g : Grouping) (h : ∀ r ∈ g.rates, ∃ n, r.IsOver n) (hbase : commonBase g.rates < 2 ^ 1023) :
    ∃ ρ, g.total = .ok ρ ∧ ComesTo g.rates ρ := by
  induction g with
  | one r =>
    obtain ⟨n, hn⟩ := h r List.mem_cons_self
    exact ⟨r, rfl, .single hn⟩
  | both left right ihl ihr =>
    have hparts := commonBase_append left.rates right.rates
    have hpos := commonBase_pos (left.rates ++ right.rates)
    obtain ⟨x, hx, hleft⟩ := ihl (fun r hr => h r (List.mem_append_left _ hr))
      ((Nat.le_of_dvd hpos (hparts ▸ Nat.dvd_lcm_left _ _)).trans_lt hbase)
    obtain ⟨y, hy, hright⟩ := ihr (fun r hr => h r (List.mem_append_right _ hr))
      ((Nat.le_of_dvd hpos (hparts ▸ Nat.dvd_lcm_right _ _)).trans_lt hbase)
    obtain ⟨ρ, hρ, htotal⟩ := hleft.add hright hbase
    exact ⟨ρ, Result.bind_eq_ok.2 ⟨x, hx, Result.bind_eq_ok.2 ⟨y, hy, hρ⟩⟩, htotal⟩

end Grouping

/-! ## Copies and efficiencies -/

theorem exists_times (r : Rate) (hk : 1 ≤ k) :
    ∃ t, r.times k = .ok t ∧ t.amount = r.amount * k ∧ t.ticks = r.ticks ∧ t.isZero = r.isZero := by
  refine ⟨_, times_of_pos hk, rfl, rfl, ?_⟩
  have hzero : r.amount * k = 0 ↔ r.amount = 0 := by
    rw [Int.mul_eq_zero]
    exact or_iff_left (by omega)
  exact decide_eq_decide.2 hzero

theorem times_zero (r : Rate) : r.times 0 = .ok zero := rfl

theorem exists_times_of_nonneg (r : Rate) (hk : 0 ≤ k) : ∃ t, r.times k = .ok t := by
  rcases hk.eq_or_lt with rfl | hpos
  · exact ⟨zero, r.times_zero⟩
  · obtain ⟨t, ht, _⟩ := r.exists_times hpos
    exact ⟨t, ht⟩

theorem zero_times (hk : 0 ≤ k) : zero.times k = .ok zero := by
  rcases hk.eq_or_lt with rfl | hpos
  · rfl
  · obtain ⟨t, ht, hamount, hticks, _⟩ := zero.exists_times hpos
    rw [ht, ← make_eq_ok t, hamount, hticks]
    rw [show zero.amount = 0 from rfl, Int.zero_mul]
    rfl

/-- The copies of a sum are the sum of the copies. -/
theorem exists_add_times (hr : r.IsOver m) (hs : s.IsOver n) (hbase : Nat.lcm r.base s.base < 2 ^ 1023) (hk : 0 ≤ k) :
    ∃ ρ, (do let t ← r.add s; t.times k) = .ok ρ ∧
      (do let x ← r.times k; let y ← s.times k; x.add y) = .ok ρ := by
  rcases hk.eq_or_lt with rfl | hpos
  · have hspan : Nat.lcm r.span s.span ∣ Nat.lcm r.base s.base :=
      Nat.lcm_dvd (r.span_dvd_base.trans (Nat.dvd_lcm_left _ _)) (s.span_dvd_base.trans (Nat.dvd_lcm_right _ _))
    obtain ⟨t, ht, _⟩ := exists_add_over hr hs
      ((Nat.le_of_dvd (Nat.lcm_pos r.base_pos s.base_pos) hspan).trans_lt hbase)
    exact ⟨zero, Result.bind_eq_ok.2 ⟨t, ht, t.times_zero⟩, rfl⟩
  · obtain ⟨x, hx, hxamount, hxticks, hx0⟩ := r.exists_times hpos
    obtain ⟨y, hy, hyamount, hyticks, hy0⟩ := s.exists_times hpos
    suffices h : ∃ t ρ, r.add s = .ok t ∧ t.times k = .ok ρ ∧ x.add y = .ok ρ by
      obtain ⟨t, ρ, ht, htimes, hxy⟩ := h
      exact ⟨ρ, Result.bind_eq_ok.2 ⟨t, ht, htimes⟩,
        Result.bind_eq_ok.2 ⟨x, hx, Result.bind_eq_ok.2 ⟨y, hy, hxy⟩⟩⟩
    cases hs0 : s.isZero with
    | true => exact ⟨r, x, add_of_isZero_right hs0, hx, add_of_isZero_right (hy0.trans hs0)⟩
    | false =>
      cases hr0 : r.isZero with
      | true =>
        exact ⟨s, y, add_of_isZero_left hr0 hs0, hy, add_of_isZero_left (hx0.trans hr0) (hy0.trans hs0)⟩
      | false =>
        rw [lcm_base hr hs] at hbase
        obtain ⟨u, v, b, hu, hv, _, _, _, hb, hadd⟩ := exists_add_eq_make hr hs hbase
        have hamount : 0 ≤ r.amount * u + s.amount * v :=
          Int.add_nonneg (Int.mul_nonneg r.amount_nonneg hu.le) (Int.mul_nonneg s.amount_nonneg hv.le)
        obtain ⟨ρ, hρ, hρamount, hρticks, _⟩ := exists_times ⟨_, b, hamount, hb⟩ hpos
        refine ⟨_, ρ, (hadd r s rfl rfl hr0 hs0).trans (make_eq_ok ⟨_, b, hamount, hb⟩), hρ, ?_⟩
        rw [hadd x y hxticks hyticks (hx0.trans hr0) (hy0.trans hs0), ← make_eq_ok ρ, hρamount, hρticks,
          hxamount, hyamount]
        congr 1
        ring

/-- Copies of copies are as many copies as both numbers multiplied. -/
theorem exists_times_times (r : Rate) (hm : 0 ≤ m) (hn : 0 ≤ n) :
    ∃ ρ, (do let t ← r.times m; t.times n) = .ok ρ ∧ r.times (m * n) = .ok ρ := by
  rcases hm.eq_or_lt with rfl | hmpos
  · exact ⟨zero, zero_times hn, by rw [Int.zero_mul]; rfl⟩
  rcases hn.eq_or_lt with rfl | hnpos
  · obtain ⟨t, ht, _⟩ := r.exists_times hmpos
    exact ⟨zero, Result.bind_eq_ok.2 ⟨t, ht, t.times_zero⟩, by rw [Int.mul_zero]; rfl⟩
  obtain ⟨t, ht, htamount, htticks, _⟩ := r.exists_times hmpos
  obtain ⟨ρ, hρ, hρamount, hρticks, _⟩ := t.exists_times hnpos
  refine ⟨ρ, Result.bind_eq_ok.2 ⟨t, ht, hρ⟩, ?_⟩
  rw [times, if_neg (Int.mul_pos hmpos hnpos).ne', ← make_eq_ok ρ, hρamount, hρticks, htamount, htticks, Int.mul_assoc]

/-- Over whole bases an efficiency above zero gives a longer base, and leaves the amount. -/
theorem IsOver.exists_stretch_eq_make (h : r.IsOver n) (hn : n < 2 ^ 1023) (he : 0.0 ≤ e) (hsome : ¬ e ≤ 0.0)
    (hone : e ≤ 1.0) :
    ∃ b : Number, b.IsPositive ∧
      ∀ ρ : Rate, ρ.ticks = r.ticks → ρ.isZero = false → ρ.stretch e = make ρ.amount b := by
  obtain ⟨v, hv⟩ := exists_size_of_nonneg he
  have hle : v ≤ ((1 : ℚ) : WithTop ℚ) := (le_iff hv stands_one.size).1 hone
  cases v with
  | top => exact absurd hle (not_le.2 (WithTop.coe_lt_top 1))
  | coe η =>
    have hη : 0 < η := lt_of_not_ge fun hle => hsome ((Stands.le_zero_iff hv).2 hle)
    have hcount : (1 : ℚ) ≤ n := by exact_mod_cast h.pos
    obtain ⟨x, w, hx, hw, hnear⟩ := h.exists_double hn
    have hwithin : Within 1 w n := hnear.within (.inr (by linarith [tiny_le, tiny_pos]))
    have hdiv : r.ticks.div (.real e) = .ok (x / e) := by
      have hbind : r.ticks.div (.real e) = (do let x ← r.ticks.double; divideDoubles x e) := by
        rcases h.held with hticks | ⟨y, hticks, _⟩ <;> rw [hticks] <;> rfl
      rw [hbind, hx]
      exact divideDoubles_of_pos hv hη
    refine ⟨.real (x / e), fun hzero => ?_, fun ρ hρ hρ0 => ?_⟩
    -- the longer base may lie beyond all doubles, and an infinity is still a base
    · rcases base_div_within hw hwithin hcount hv hη (WithTop.coe_le_coe.1 hle) with
        ⟨z, hz, hpos, _⟩ | ⟨hinfinite, _⟩
      · exact not_le.2 hpos (hz.le_zero_iff.1 hzero)
      · exact hinfinite.not_le_zero hzero
    · rw [stretch_of_some (not_or.2 ⟨hsome, Bool.eq_false_iff.1 hρ0⟩), hρ, hdiv]
      rfl

/-- Copies at an efficiency are copies of the rate at the efficiency. Where either leaves nothing, both
orders end at the zero rate over its own base. -/
theorem IsOver.exists_times_stretch (h : r.IsOver n) (hn : n < 2 ^ 1023) (hk : 0 ≤ k) (he : 0.0 ≤ e) (hone : e ≤ 1.0) :
    ∃ ρ, (do let t ← r.times k; t.stretch e) = .ok ρ ∧ (do let t ← r.stretch e; t.times k) = .ok ρ := by
  by_cases hnone : e ≤ 0.0 ∨ r.isZero = true
  · obtain ⟨t, ht, ht0⟩ : ∃ t, r.times k = .ok t ∧ (e ≤ 0.0 ∨ t.isZero = true) := by
      rcases hk.eq_or_lt with rfl | hpos
      · exact ⟨zero, rfl, .inr rfl⟩
      · obtain ⟨t, ht, _, _, hzero⟩ := r.exists_times hpos
        exact ⟨t, ht, hzero ▸ hnone⟩
    exact ⟨zero, Result.bind_eq_ok.2 ⟨t, ht, stretch_of_nothing ht0⟩,
      Result.bind_eq_ok.2 ⟨zero, stretch_of_nothing hnone, zero_times hk⟩⟩
  · obtain ⟨hsome, hr0⟩ := not_or.1 hnone
    obtain ⟨b, hb, hstretch⟩ := h.exists_stretch_eq_make hn he hsome hone
    have hr := (hstretch r rfl (Bool.eq_false_iff.2 hr0)).trans (make_eq_ok ⟨_, b, r.amount_nonneg, hb⟩)
    rcases hk.eq_or_lt with rfl | hpos
    · exact ⟨zero, stretch_of_nothing (.inr rfl), Result.bind_eq_ok.2 ⟨_, hr, times_zero _⟩⟩
    · obtain ⟨t, ht, htamount, htticks, ht0⟩ := r.exists_times hpos
      obtain ⟨ρ, hρ, hρamount, hρticks, _⟩ := exists_times ⟨_, b, r.amount_nonneg, hb⟩ hpos
      refine ⟨ρ, Result.bind_eq_ok.2 ⟨t, ht, ?_⟩, Result.bind_eq_ok.2 ⟨_, hr, hρ⟩⟩
      rw [hstretch t htticks (ht0.trans (Bool.eq_false_iff.2 hr0)), ← make_eq_ok ρ, htamount, hρamount, hρticks]

/-! ## Sums from nothing -/

theorem foldlM_operands (rs : List Rate) (ρ : Rate) :
    (rs.map Operand.rate).foldlM Operand.add (.rate ρ) = (rs.foldlM add ρ).map .rate := by
  induction rs generalizing ρ with
  | nil => rfl
  | cons r rs ih =>
    rw [List.map_cons, List.foldlM_cons, List.foldlM_cons]
    change (ρ.add r).map Operand.rate >>= _ = _
    cases ρ.add r with
    | error f => rfl
    | ok t => exact ih t

/-- A sum may start from the zero rate or from the number zero. -/
theorem exists_sum (hrs : ∀ r ∈ rs, ∃ n, r.IsOver n) (hbase : commonBase rs < 2 ^ 1023) (hne : rs ≠ []) :
    (∃ ρ, sum rs = .ok ρ ∧ ComesTo rs ρ) ∧
      ∃ ρ, Operand.sum (rs.map .rate) = .ok (.rate ρ) ∧ ComesTo rs ρ := by
  refine ⟨ComesTo.zero.foldlM hrs hbase, ?_⟩
  cases rs with
  | nil => exact absurd rfl hne
  | cons r rs =>
    obtain ⟨⟨n, hn⟩, hrest⟩ := List.forall_mem_cons.1 hrs
    obtain ⟨ρ, hρ, hcomes⟩ := (ComesTo.single hn).foldlM hrest hbase
    refine ⟨ρ, ?_, hcomes⟩
    change (rs.map Operand.rate).foldlM Operand.add (.rate r) = _
    rw [foldlM_operands, hρ]
    rfl

/-- The rate is the merged one, held as an integer or as a double, and lets through what all of them do. -/
def IsTotal (rs : List Rate) (ρ : Rate) : Prop := ρ.same (merged rs) = true ∧ ρ.flow = (rs.map flow).sum

theorem lcm_bases_pos (rs : List Rate) : 0 < ((rs.map base : List Nat) : Multiset Nat).lcm := by
  refine Nat.pos_of_ne_zero fun hzero => ?_
  obtain ⟨r, _, hr⟩ := List.mem_map.1 (Multiset.mem_coe.1 ((Multiset.lcm_eq_zero_iff _).1 hzero))
  exact r.base_pos.ne' hr

/-- Over whole bases the rates add up to one rate from either zero, in any order and grouping; copies go
past additions, past each other and past efficiencies, on either side of the rate. -/
theorem sums_and_copies_over_whole_bases (hrs : ∀ r ∈ rs, ∃ n, r.IsOver n)
    (hbase : ((rs.map base : List Nat) : Multiset Nat).lcm < 2 ^ 1023) :
    ((∃ r ∈ rs, r.isZero = false) →
      (∀ ss : List Rate, ss.Perm rs → (∃ ρ, sum ss = .ok ρ ∧ IsTotal rs ρ) ∧
        ∃ ρ, Operand.sum (ss.map .rate) = .ok (.rate ρ) ∧ IsTotal rs ρ) ∧
      ∀ g : Grouping, g.rates.Perm rs → ∃ ρ, g.total = .ok ρ ∧ IsTotal rs ρ) ∧
    (∀ r ∈ rs, ∀ s ∈ rs, ∀ n : Int, 0 ≤ n →
      ∃ ρ, (do let t ← r.add s; t.times n) = .ok ρ ∧
        (do let x ← r.times n; let y ← s.times n; x.add y) = .ok ρ) ∧
    ∀ r ∈ rs, ∀ n m : Int, 0 ≤ n → 0 ≤ m → ∀ e : Float, 0.0 ≤ e → e ≤ 1.0 →
      (∃ ρ, (do let t ← r.times n; t.stretch e) = .ok ρ ∧ (do let t ← r.stretch e; t.times n) = .ok ρ) ∧
      (∃ ρ, (do let t ← r.times m; t.times n) = .ok ρ ∧ r.times (m * n) = .ok ρ) ∧
      ∃ ρ, Operand.mul (.value (.int n)) (.rate r) = .ok (.rate ρ) ∧
        Operand.mul (.rate r) (.value (.int n)) = .ok (.rate ρ) := by
  have hdvd : ∀ r ∈ rs, r.base ∣ ((rs.map base : List Nat) : Multiset Nat).lcm :=
    fun r hr => Multiset.dvd_lcm (Multiset.mem_coe.2 (List.mem_map_of_mem hr))
  have hle {l : Nat} (hl : l ∣ ((rs.map base : List Nat) : Multiset Nat).lcm) : l < 2 ^ 1023 :=
    (Nat.le_of_dvd (lcm_bases_pos rs) hl).trans_lt hbase
  have hcommon : commonBase rs < 2 ^ 1023 := hle (commonBase_dvd hdvd)
  refine ⟨fun hsome => ?_, fun r hr s hs n hn => ?_, fun r hr n m hn hm e he hone => ?_⟩
  · have htotal {ss : List Rate} {ρ : Rate} (hperm : ss.Perm rs) (hρ : ComesTo ss ρ) : IsTotal rs ρ :=
      ⟨(hρ.perm hperm).same_merged hrs hsome, (hρ.perm hperm).flow⟩
    refine ⟨fun ss hperm => ?_, fun g hperm => ?_⟩
    · obtain ⟨r, hr, _⟩ := hsome
      obtain ⟨⟨ρ, hρ, hcomes⟩, σ, hσ, hcomes'⟩ := exists_sum (fun s hs => hrs s (hperm.mem_iff.1 hs))
        (commonBase_perm hperm ▸ hcommon) (List.ne_nil_of_mem (hperm.mem_iff.2 hr))
      exact ⟨⟨ρ, hρ, htotal hperm hcomes⟩, σ, hσ, htotal hperm hcomes'⟩
    · obtain ⟨ρ, hρ, hcomes⟩ := g.comesTo_total (fun s hs => hrs s (hperm.mem_iff.1 hs))
        (commonBase_perm hperm ▸ hcommon)
      exact ⟨ρ, hρ, htotal hperm hcomes⟩
  · obtain ⟨k, hk⟩ := hrs r hr
    obtain ⟨l, hl⟩ := hrs s hs
    exact exists_add_times hk hl (hle (Nat.lcm_dvd (hdvd r hr) (hdvd s hs))) hn
  · obtain ⟨k, hk⟩ := hrs r hr
    have hbound : k < 2 ^ 1023 := by
      rw [← hk.base_eq]
      exact_mod_cast hle (hdvd r hr)
    obtain ⟨ρ, hρ⟩ := r.exists_times_of_nonneg hn
    have hmul : Operand.mul (.rate r) (.value (.int n)) = .ok (.rate ρ) := congrArg (Except.map Operand.rate) hρ
    exact ⟨hk.exists_times_stretch hbound hn he hone, r.exists_times_times hm hn, ρ, hmul, hmul⟩

/-- Eleven eighths and thirteen sixths of a unit, and nothing, over bases of which one is held as a double. -/
def threeBases : List Rate :=
  [⟨11, .whole 8, by decide, by decide⟩, { Rate.zero with ticks := .whole 7, ticks_pos := by decide },
    ⟨13, .real 6.0, by decide, by decide +kernel⟩]

theorem sums_and_copies_over_whole_bases_three :
    (∀ r ∈ threeBases, ∃ n, r.IsOver n) ∧ ((threeBases.map base : List Nat) : Multiset Nat).lcm = 168 ∧
      (merged threeBases).amount = 85 ∧ (merged threeBases).ticks = .whole 24 ∧
      (∀ ss : List Rate, ss.Perm threeBases → ∃ ρ, sum ss = .ok ρ ∧ IsTotal threeBases ρ) ∧
      (∀ g : Grouping, g.rates.Perm threeBases → ∃ ρ, g.total = .ok ρ ∧ IsTotal threeBases ρ) ∧
      ∀ r ∈ threeBases,
        (∀ s ∈ threeBases, ∃ ρ, (do let t ← r.add s; t.times 5) = .ok ρ ∧
          (do let x ← r.times 5; let y ← s.times 5; x.add y) = .ok ρ) ∧
        ∃ ρ, (do let t ← r.times 5; t.stretch 0.25) = .ok ρ ∧ (do let t ← r.stretch 0.25; t.times 5) = .ok ρ := by
  have hover : ∀ r ∈ threeBases, ∃ n, r.IsOver n := by
    intro r hr
    fin_cases hr
    · exact ⟨8, rfl⟩
    · exact ⟨7, rfl⟩
    · exact ⟨6, by decide +kernel⟩
  have hlcm : ((threeBases.map base : List Nat) : Multiset Nat).lcm = 168 := by decide +kernel
  have hbound : 168 < 2 ^ 1023 := calc
    168 < 2 ^ 8 := by decide
    _ ≤ 2 ^ 1023 := pow_le_pow_right₀ one_le_two (by decide)
  obtain ⟨hsums, hcopies, hscales⟩ := sums_and_copies_over_whole_bases hover (hlcm ▸ hbound)
  obtain ⟨hsum, hgrouping⟩ := hsums ⟨_, List.mem_cons_self, rfl⟩
  refine ⟨hover, hlcm, by decide +kernel, by decide +kernel, fun ss hperm => (hsum ss hperm).1, hgrouping,
    fun r hr => ⟨fun s hs => hcopies r hr s hs 5 (by decide), ?_⟩⟩
  exact (hscales r hr 5 1 (by decide) (by decide) 0.25 (by decide +kernel) (by decide +kernel)).1

end Rate

end Conveyor
