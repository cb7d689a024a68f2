-- SUMMARY: A slot asks for copies enough of its supplier, and for hardly more than enough.
import Conveyor.Proofs.Efficiency.Again
import Conveyor.Proofs.Rate.Least

/-!
# Sizing

Where the copies of a supplier cannot meet a demand, the slot asks for more of them. What it asks for is
computed on doubles, but can be told in whole numbers: what one copy yields in a cycle, what all copies of
the stream take in one, and the periods of both.
-/

namespace Conveyor

open Binary64

namespace Arena

variable {a : Arena} {i : Nat} {s t : Stream} {slot : Slot} {ε : Float} {m y p d q n : Int}

/-! ## What a slot asks for -/

/-- The rate at which all copies of a stream would give a product. -/
def capacityOf (t : Stream) (p : Product) : Except Fault Rate := do
  let outflow ← t.recipe.outflowOf p
  outflow.times t.mult

/-- The multiplier that stream `s` asks for its supplier at a slot. -/
def raiseFor (ε : Float) (a : Arena) (s : Stream) (slot : Slot) : Except Fault Int := do
  let t ← a.stream slot.supplier
  let capacity ← capacityOf t slot.product
  let optimal ← optimalOf s slot.product
  let needed ← capacity.ratio optimal
  raisedMultiplier t.mult needed ε

/-- A positive integer that a double holds to the last digit. -/
structure Figure (n : Int) : Prop where
  one_le : 1 ≤ n
  lt : n < 2 ^ 53

theorem Figure.mid {n : Int} (h : Figure n) : Mid 53 n := .of_int h.one_le h.lt

theorem Figure.pos {n : Int} (h : Figure n) : (0 : ℚ) < n := h.mid.pos

/-- The whole numbers that decide a raise: `m` copies yield `y` units each in `p` ticks, where `d` units in
`q` ticks are asked for. -/
structure Figures (m y p d q : Int) : Prop where
  copies : Figure m
  yield : Figure y
  cycle : Figure p
  demand : Figure d
  period : Figure q

namespace Figures

variable (h : Figures m y p d q)
include h

theorem mid_capacity : Mid (53 + 53 + 53) (m * y / p : ℚ) := (h.copies.mid.mul h.yield.mid).div h.cycle.mid

theorem mid_optimal : Mid (53 + 53) (d / q : ℚ) := h.demand.mid.div h.period.mid

/-- So many copies would meet the demand exactly. -/
theorem copies_div_share : (m : ℚ) / (m * y / p / (d / q)) = d * p / (y * q) := by
  have hm := h.copies.pos.ne'
  have hy := h.yield.pos.ne'
  have hp := h.cycle.pos.ne'
  have hd := h.demand.pos.ne'
  have hq := h.period.pos.ne'
  field_simp

/-- The copies that there are meet less than the demand. -/
theorem share_lt_one (hless : (m * y * q : ℚ) < d * p) : (m * y / p / (d / q) : ℚ) < 1 := by
  rwa [div_lt_one h.mid_optimal.pos, div_lt_div_iff₀ h.cycle.pos h.period.pos]

end Figures

/-- All copies of stream `s` ask for a product, through a slot, of the supplier `t`. -/
structure Meeting (a : Arena) (s t : Stream) (slot : Slot) (m y p d q : Int) : Prop
    extends Figures m y p d q where
  supplier : a.stream? slot.supplier = some t
  gives : t.recipe.Positive
  takes : s.recipe.Positive
  mult_eq : t.mult = m
  yieldOf_eq : t.recipe.yieldOf slot.product = y
  supplier_isTimed : t.recipe.IsTimed p
  requiredOf_eq : s.recipe.requiredOf slot.product * s.mult = d
  isTimed : s.recipe.IsTimed q

namespace Meeting

variable (h : a.Meeting s t slot m y p d q)
include h

theorem exists_capacity : ∃ capacity, capacityOf t slot.product = .ok capacity ∧
    capacity.ticks = .whole p ∧ capacity.flow = m * y / p := by
  obtain ⟨outflow, houtflow, hrate⟩ := Recipe.outflowOf_eq_ok h.supplier_isTimed h.gives slot.product
  obtain ⟨capacity, htimes, hticks, hflow⟩ :=
    hrate.exists_times (h.yieldOf_eq.symm ▸ h.yield.one_le) (h.mult_eq.symm ▸ h.copies.one_le)
  refine ⟨capacity, Result.bind_eq_ok.2 ⟨outflow, houtflow, htimes⟩, hticks, ?_⟩
  rw [hflow, h.yieldOf_eq, h.mult_eq, Int.cast_mul, mul_comm (y : ℚ)]

theorem exists_optimal : ∃ optimal, optimalOf s slot.product = .ok optimal ∧
    optimal.ticks = .whole q ∧ optimal.flow = d / q := by
  obtain ⟨inflow, hinflow, hrate⟩ := Recipe.inflowOf_eq_ok h.isTimed h.takes slot.product
  have hdemand : 0 < s.recipe.requiredOf slot.product * s.mult := h.requiredOf_eq.symm ▸ h.demand.one_le
  have hrequired : 0 ≤ s.recipe.requiredOf slot.product := hrate.amount ▸ inflow.amount_nonneg
  have hmult : 0 < s.mult := pos_of_mul_pos_right hdemand hrequired
  obtain ⟨optimal, htimes, hticks, hflow⟩ := hrate.exists_times (pos_of_mul_pos_left hdemand hmult.le) hmult
  refine ⟨optimal, Result.bind_eq_ok.2 ⟨inflow, hinflow, htimes⟩, hticks, ?_⟩
  rw [hflow, h.requiredOf_eq]

end Meeting

/-! ## What the slot computes -/

theorem lacksCopies_eq {capacity optimal : Rate} (ht : a.stream? slot.supplier = some t)
    (hcapacity : capacityOf t slot.product = .ok capacity) (hoptimal : optimalOf s slot.product = .ok optimal) :
    a.lacksCopies ε s slot = capacity.isShortOf optimal ε := by
  obtain ⟨outflow, houtflow, htimes⟩ := Result.bind_eq_ok.1 hcapacity
  simp only [lacksCopies, stream_of_eq_some ht, houtflow, htimes, hoptimal, bind, Except.bind]

theorem raiseFor_eq {capacity optimal : Rate} (ht : a.stream? slot.supplier = some t)
    (hcapacity : capacityOf t slot.product = .ok capacity) (hoptimal : optimalOf s slot.product = .ok optimal) :
    a.raiseFor ε s slot = capacity.ratio optimal >>= fun needed => raisedMultiplier t.mult needed ε := by
  simp only [raiseFor, stream_of_eq_some ht, hcapacity, hoptimal, bind, Except.bind]

namespace Meeting

variable (h : a.Meeting s t slot m y p d q)
include h

/-- The comparison has an answer, and a lack that the roundings cannot hide is found. -/
theorem exists_lacksCopies : ∃ short, a.lacksCopies defaultEpsilon s slot = .ok short ∧
    ((m * y * q * (2 ^ 50 + 1) : ℚ) ≤ d * p * (1 - Rate.tolerance) * 2 ^ 50 → short = true) := by
  obtain ⟨capacity, hcapacity, hticks, hflow⟩ := h.exists_capacity
  obtain ⟨optimal, hoptimal, hticks', hflow'⟩ := h.exists_optimal
  obtain ⟨short, hshort, hfound⟩ := Rate.exists_isShortOf_close hticks hticks' (hflow ▸ h.mid_capacity)
    (hflow' ▸ h.mid_optimal) (by decide) (by decide)
  refine ⟨short, (lacksCopies_eq h.supplier hcapacity hoptimal).trans hshort, fun hclear => hfound ?_⟩
  rw [hflow, hflow', div_mul_eq_mul_div, div_mul_eq_mul_div, div_le_div_iff₀ h.cycle.pos h.period.pos]
  linarith

theorem exists_raiseFor (hless : (m * y * q : ℚ) < d * p) :
    ∃ n, a.raiseFor defaultEpsilon s slot = .ok n ∧ Rate.Fitting (d * p / (y * q)) m n := by
  obtain ⟨capacity, hcapacity, hticks, hflow⟩ := h.exists_capacity
  obtain ⟨optimal, hoptimal, hticks', hflow'⟩ := h.exists_optimal
  obtain ⟨needed, w, hneeded, hw, hclose⟩ := Rate.exists_ratio_close hticks hticks' (hflow ▸ h.mid_capacity)
    (hflow' ▸ h.mid_optimal) (by decide)
  rw [hflow, hflow'] at hclose
  obtain ⟨n, hraise, hfitting⟩ := Rate.exists_raise_fitting h.copies.mid h.copies.one_le hw hclose
    (h.mid_capacity.div h.mid_optimal) (h.share_lt_one hless) (by decide)
  rw [h.copies_div_share] at hfitting
  refine ⟨n, ?_, hfitting⟩
  rw [raiseFor_eq h.supplier hcapacity hoptimal, h.mult_eq]
  exact Result.bind_eq_ok.2 ⟨needed, hneeded, hraise⟩

/-- A slot that lacks copies adds the raise to the pending ones, and changes nothing yet. -/
theorem rests_slot {b : Balancing} (hb : b.arena = a) (hs : a.stream? i = some s)
    (hlacks : a.lacksCopies ε s slot = .ok true) (hraise : a.raiseFor ε s slot = .ok n)
    (balance : Nat → Action Balancing Unit) (pending : Balancing.Pending) :
    Balancing.Rests b (Balancing.slot balance ε i pending slot) (pending.raise slot.supplier n) := by
  subst hb
  obtain ⟨capacity, hcapacity, _, hflow⟩ := h.exists_capacity
  obtain ⟨optimal, hoptimal, _⟩ := h.exists_optimal
  rw [lacksCopies_eq h.supplier hcapacity hoptimal] at hlacks
  rw [raiseFor_eq h.supplier hcapacity hoptimal] at hraise
  obtain ⟨needed, hneeded, hraise⟩ := Result.bind_eq_ok.1 hraise
  have hsome : capacity.isZero = false := Rate.isZero_of_flow_pos (hflow ▸ h.mid_capacity.pos)
  obtain ⟨outflow, houtflow, hcapacity⟩ := Result.bind_eq_ok.1 hcapacity
  obtain ⟨inflow, hinflow, hoptimal⟩ := Result.bind_eq_ok.1 hoptimal
  have hcompares : b.arena.Compares i slot t s inflow optimal outflow capacity :=
    ⟨h.supplier, hs, hinflow, hoptimal, houtflow, hcapacity⟩
  rw [Balancing.slot_eq]
  refine Balancing.answers_query (hcompares.ask_eq_ok (.copies hsome hlacks hneeded hraise)) ?_
  exact Action.Triple.pure fun _ hb => ⟨rfl, hb⟩

end Meeting

/-! ## A line for any figures -/

namespace Figures

variable (h : Figures m y p d q)

/-- Mines that dig ore at these figures. -/
def mine : Stream := Stream.fresh (Recipe.every p h.cycle.one_le [] [⟨⟨0, 0⟩, y⟩]) [] m 8

/-- A furnace that takes the ore of the mines at these figures. -/
def furnace : Stream :=
  Stream.fresh (Recipe.every q h.period.one_le [⟨⟨0, 0⟩, d⟩] [⟨⟨1, 0⟩, 1⟩]) [⟨⟨0, 0⟩, 0⟩] 1 8

/-- The mines and the furnace. -/
def line : Arena := ⟨[h.mine, h.furnace]⟩

/-- Whatever the figures, there is a slot at which they meet. -/
theorem line_meeting : h.line.Meeting h.furnace h.mine ⟨⟨0, 0⟩, 0⟩ m y p d q where
  toFigures := h
  supplier := rfl
  gives := ⟨nofun, List.forall_mem_singleton.2 h.yield.one_le⟩
  takes := ⟨List.forall_mem_singleton.2 h.demand.one_le, List.forall_mem_singleton.2 Int.one_pos⟩
  mult_eq := rfl
  yieldOf_eq := Int.zero_add y
  supplier_isTimed := Recipe.every_isTimed _ _ _
  requiredOf_eq := (Int.mul_one _).trans (Int.zero_add d)
  isTimed := Recipe.every_isTimed _ _ _

end Figures

/-! ## How much it is -/

/-- Where the copies of a supplier do not meet what the tolerance leaves of a demand, the raise does. With one
copy less the demand would not be met, as long as a million copies would do; where more are called for, it
would hardly be exceeded. The slot asks for the raise, unless the copies are so near to enough that the
roundings hide what they lack. -/
theorem raise_meets_demand (h : a.Meeting s t slot m y p d q) (hs : a.stream? i = some s)
    (hless : (m * y * q : ℚ) < d * p * (1 - Rate.tolerance)) :
    ∃ n short, a.raiseFor defaultEpsilon s slot = .ok n ∧ a.lacksCopies defaultEpsilon s slot = .ok short ∧
      m < n ∧ (d * p * (1 - Rate.tolerance) : ℚ) ≤ n * y * q ∧
      (n - 1) * y * q * 2 ^ 50 < d * p * (2 ^ 50 + 1) ∧
      (d * p ≤ 2 ^ 20 * (y * q) → (n - 1) * y * q < d * p) ∧
      ((m * y * q * (2 ^ 50 + 1) : ℚ) ≤ d * p * (1 - Rate.tolerance) * 2 ^ 50 → short = true) ∧
      (short = true → ∀ b : Balancing, b.arena = a → ∀ balance pending,
        Balancing.Rests b (Balancing.slot balance defaultEpsilon i pending slot)
          (pending.raise slot.supplier n)) := by
  have hall : (m * y * q : ℚ) < d * p := by
    refine hless.trans_le (mul_le_of_le_one_right (mul_pos h.demand.pos h.cycle.pos).le ?_)
    linarith [Rate.two_pow_le_tolerance]
  obtain ⟨n, hraise, hfitting⟩ := h.exists_raiseFor hall
  obtain ⟨short, hlacks, hfound⟩ := h.exists_lacksCopies
  obtain ⟨henough, hnearly, hleast⟩ := hfitting.of_div (mul_pos h.yield.pos h.period.pos)
  refine ⟨n, short, hraise, hlacks, hfitting.grows, ?_, ?_, ?_, hfound, ?_⟩
  · rwa [mul_assoc (n : ℚ)]
  · rw [mul_assoc (n - 1)]
    exact_mod_cast hnearly
  · rw [mul_assoc (n - 1)]
    exact_mod_cast hleast
  · rintro rfl b hb
    exact h.rests_slot hb hs hlacks hraise

/-- A mine that digs one ore in four ticks, and a furnace that takes two in two. -/
theorem quarter_figures : Figures 1 1 4 2 2 := by
  constructor <;> constructor <;> decide

/-- A mine that digs one ore each tick, and a furnace that takes some millions of it in one. -/
theorem millions_figures : Figures 1 1 1 23728586 1 := by
  constructor <;> constructor <;> decide

/-- Four mines do for the furnace, and three would not. -/
theorem raise_meets_demand_quarter :
    let a := quarter_figures.line
    (1 * 1 * 2 : ℚ) < 2 * 4 * (1 - Rate.tolerance) ∧
      a.raiseFor defaultEpsilon quarter_figures.furnace ⟨⟨0, 0⟩, 0⟩ = .ok 4 ∧
      ((4 - 1) * 1 * 2 : Int) < 2 * 4 ∧
      ∀ b : Balancing, b.arena = a → ∀ balance pending,
        Balancing.Rests b (Balancing.slot balance defaultEpsilon 1 pending ⟨⟨0, 0⟩, 0⟩) (pending.raise 0 4) := by
  have hless : (1 * 1 * 2 : ℚ) < 2 * 4 * (1 - Rate.tolerance) := by norm_num [Rate.tolerance]
  obtain ⟨n, short, hraise, _, _, _, _, hleast, hfound, hasks⟩ :=
    raise_meets_demand quarter_figures.line_meeting (i := 1) rfl (by exact_mod_cast hless)
  have hfour : quarter_figures.line.raiseFor defaultEpsilon quarter_figures.furnace ⟨⟨0, 0⟩, 0⟩ = .ok 4 := rfl
  obtain rfl := Except.ok.inj (hraise.symm.trans hfour)
  refine ⟨hless, hfour, hleast (by decide), hasks (hfound ?_)⟩
  norm_num [Rate.tolerance]

/-- The roundings of a quotient of some millions come to more than the tolerance. The raise is to one copy
more than would do, and without that copy the demand is met exactly. -/
theorem raise_one_too_many :
    let a := millions_figures.line
    a.Meeting millions_figures.furnace millions_figures.mine ⟨⟨0, 0⟩, 0⟩ 1 1 1 23728586 1 ∧
      (1 * 1 * 1 : ℚ) < 23728586 * 1 * (1 - Rate.tolerance) ∧
      a.raiseFor defaultEpsilon millions_figures.furnace ⟨⟨0, 0⟩, 0⟩ = .ok 23728587 ∧
      (∃ c, solve 1 defaultEpsilon { state := a } = .ok [⟨0, 1, 23728587⟩] c) ∧
      ¬ ((23728587 - 1) * 1 * 1 : Int) < 23728586 * 1 := by
  intro a
  have hrun : (match solve 1 defaultEpsilon { state := a } with
      | .ok changes _ => decide (changes = [⟨0, 1, 23728587⟩])
      | .error _ _ => false) = true := by
    decide +kernel
  refine ⟨millions_figures.line_meeting, by norm_num [Rate.tolerance], rfl, ?_, by decide⟩
  cases h : solve 1 defaultEpsilon { state := a } with
  | error f c => rw [h] at hrun; cases hrun
  | ok changes c =>
    rw [h] at hrun
    obtain rfl := of_decide_eq_true hrun
    exact ⟨c, rfl⟩

end Arena

end Conveyor
