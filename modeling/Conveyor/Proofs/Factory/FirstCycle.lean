-- SUMMARY: When a stream as it was registered runs its first cycle: where its suppliers hold enough, and do not fill it up.
import Conveyor.Proofs.Drawing
import Conveyor.Proofs.Factory.Pace

/-!
# First cycles

A stream that was registered and left alone has an empty buffer for each product that it yields, with
room for so many cycles, and no others. At its first boundary it draws all that fits. For a product that
it only takes it makes room then, for as many cycles. A product that it takes and yields has one buffer,
sized for the yield; what is drawn goes in there, and a cycle wants room for its yield beside that.
-/

namespace Conveyor

namespace Arena

variable {a : Arena} {i : Nat} {s : Stream} {m : Int}

/-! ## Room -/

/-- Of what the stream both takes and yields, its suppliers hold no more than leaves room for the yield of a
cycle. -/
def LeavesRoom (m : Int) (a : Arena) (s : Stream) : Prop :=
  ∀ p ∈ s.recipe.inputs.map Part.product, p ∈ s.recipe.outputs.map Part.product →
    a.offered s.inputs p ≤ s.recipe.yieldOf p * (m - 1) * s.mult

instance (m : Int) (a : Arena) (s : Stream) : Decidable (a.LeavesRoom m s) :=
  inferInstanceAs (Decidable (∀ p ∈ s.recipe.inputs.map Part.product, p ∈ s.recipe.outputs.map Part.product →
    a.offered s.inputs p ≤ s.recipe.yieldOf p * (m - 1) * s.mult))

/-- Units of a product that the buffer of a fresh stream has room for, if there is one or once there is. -/
def freshRoom (m : Int) (s : Stream) (p : Product) : Int :=
  if p ∈ s.recipe.outputs.map Part.product then s.recipe.yieldOf p * m * s.mult
  else s.recipe.requiredOf p * m * s.mult

theorem get?_of_fresh (hfresh : s = Stream.fresh s.recipe s.inputs s.mult m) (p : Product) :
    s.buffers.get? p = if p ∈ s.recipe.outputs.map Part.product then
      some ⟨0, s.recipe.yieldOf p * m * s.mult⟩ else none := by
  rw [congrArg Stream.buffers hfresh]
  exact Stream.get?_fresh _ _ _ _ _

theorem inputBuffer_fresh (hfresh : s = Stream.fresh s.recipe s.inputs s.mult m) (p : Product) :
    s.inputBuffer p m = ⟨0, freshRoom m s p⟩ := by
  unfold Stream.inputBuffer freshRoom
  rw [get?_of_fresh hfresh]
  split <;> rfl

theorem filled_fresh (hfresh : s = Stream.fresh s.recipe s.inputs s.mult m) (p : Product) :
    filled m a s p = ⟨min (a.offered s.inputs p) (max (freshRoom m s p) 0), freshRoom m s p⟩ := by
  rw [filled, inputBuffer_fresh hfresh]
  simp only [Buffer.gain, Buffer.free, Int.sub_zero, Int.zero_add]

/-- A cycle has room for its yield where what is drawn leaves it. -/
theorem yield_le_free_fresh (hbuilt : s.Built) (hfresh : s = Stream.fresh s.recipe s.inputs s.mult m)
    {p : Product} (hp : p ∈ s.recipe.outputs.map Part.product) :
    s.recipe.yieldOf p * s.mult ≤ (filled m a s p).free ↔
      a.offered s.inputs p ≤ s.recipe.yieldOf p * (m - 1) * s.mult := by
  have hmult := hbuilt.copies
  have hyield : 0 < s.recipe.yieldOf p * s.mult :=
    Int.mul_pos (Recipe.yieldOf_pos hbuilt.positive hp) (by omega)
  have hroom : s.recipe.yieldOf p * (m - 1) * s.mult =
      s.recipe.yieldOf p * m * s.mult - s.recipe.yieldOf p * s.mult := by
    ring
  rw [filled_fresh hfresh, freshRoom, if_pos hp, hroom]
  simp only [Buffer.free]
  omega

/-! ## Stock -/

theorem required_nonneg (hbuilt : s.Built) (p : Product) : 0 ≤ s.recipe.requiredOf p * s.mult := by
  have hmult := hbuilt.copies
  exact Int.mul_nonneg (Recipe.requiredOf_nonneg hbuilt.positive p) (by omega)

theorem mem_inputs_iff (hbuilt : s.Built) (p : Product) :
    p ∈ s.recipe.inputs.map Part.product ↔ ∃ slot ∈ s.inputs, slot.product = p := by
  rw [← hbuilt.slots]
  exact List.mem_map

/-- Where each supplier holds enough for a cycle, the suppliers of a product do together. -/
theorem required_le_offered (hbuilt : s.Built)
    (hstocked : ∀ slot ∈ s.inputs,
      s.recipe.requiredOf slot.product * s.mult ≤ a.held slot.supplier slot.product)
    {p : Product} (hp : p ∈ s.recipe.inputs.map Part.product) :
    s.recipe.requiredOf p * s.mult ≤ a.offered s.inputs p := by
  obtain ⟨slot, hslot, rfl⟩ := (mem_inputs_iff hbuilt p).1 hp
  refine (hstocked slot hslot).trans (le_offered (fun u hu => ?_) (mem_sources.2 ⟨slot, hslot, rfl, rfl⟩))
  obtain ⟨other, hother, hproduct, rfl⟩ := mem_sources.1 hu
  exact hproduct ▸ (required_nonneg hbuilt _).trans (hstocked other hother)

theorem offered_eq_zero (hbuilt : s.Built) {p : Product} (hp : p ∉ s.recipe.inputs.map Part.product) :
    a.offered s.inputs p = 0 := by
  refine Finset.sum_eq_zero fun u hu => ?_
  obtain ⟨slot, hslot, hproduct, _⟩ := mem_sources.1 hu
  exact absurd ((mem_inputs_iff hbuilt p).2 ⟨slot, hslot, hproduct⟩) hp

/-- Where the suppliers hold enough and leave room, enough for a cycle is drawn. -/
theorem required_le_filled_fresh (hbuilt : s.Built) (hm : 1 ≤ m)
    (hfresh : s = Stream.fresh s.recipe s.inputs s.mult m)
    (hstocked : ∀ slot ∈ s.inputs,
      s.recipe.requiredOf slot.product * s.mult ≤ a.held slot.supplier slot.product)
    (hleaves : a.LeavesRoom m s) {p : Product} (hp : p ∈ s.recipe.inputs.map Part.product) :
    s.recipe.requiredOf p * s.mult ≤ (filled m a s p).current := by
  have hoffered := required_le_offered hbuilt hstocked hp
  have hrequired := required_nonneg hbuilt p
  rw [filled_fresh hfresh]
  refine le_min hoffered (le_trans ?_ (le_max_left _ _))
  rw [freshRoom]
  split
  next hout =>
    have hmult := hbuilt.copies
    have hyield := Recipe.yieldOf_pos hbuilt.positive hout
    have hfits := hleaves p hp hout
    nlinarith
  next => nlinarith

/-- After drawing, a fresh stream whose suppliers hold enough lacks nothing but, maybe, room. -/
theorem canProduce_draw_fresh {t : Stream} (hbuilt : s.Built) (hm : 1 ≤ m) (hs : a.stream? i = some s)
    (hfresh : s = Stream.fresh s.recipe s.inputs s.mult m) (ht : (a.draw m i s.inputs).stream? i = some t)
    (hne : ∀ slot ∈ s.inputs, slot.supplier ≠ i)
    (hstocked : ∀ slot ∈ s.inputs,
      s.recipe.requiredOf slot.product * s.mult ≤ a.held slot.supplier slot.product) :
    t.canProduce = true ↔ a.LeavesRoom m s := by
  have hmult := hbuilt.copies
  have houtputs (p : Product) (hp : p ∈ s.recipe.outputs.map Part.product) : (a.buffer? i p).isSome = true := by
    rw [buffer?, hs, Option.bind_some, get?_of_fresh hfresh, if_pos hp]
    rfl
  rw [canProduce_draw hs ht hbuilt.slots hne
    (fun slot hslot => (required_nonneg hbuilt _).trans (hstocked slot hslot)) houtputs]
  constructor
  · rintro ⟨_, hfree⟩ p _ hout
    exact (yield_le_free_fresh hbuilt hfresh hout).1 (hfree p hout)
  · intro hleaves
    refine ⟨fun p => required_le_filled_fresh hbuilt hm hfresh hstocked hleaves, fun p hout => ?_⟩
    refine (yield_le_free_fresh hbuilt hfresh hout).2 ?_
    cases Decidable.em (p ∈ s.recipe.inputs.map Part.product) with
    | inl hin => exact hleaves p hin hout
    | inr hin =>
      have hyield := (Recipe.yieldOf_pos hbuilt.positive hout).le
      rw [offered_eq_zero hbuilt hin]
      exact Int.mul_nonneg (Int.mul_nonneg hyield (by omega)) (by omega)

end Arena

namespace Factory

open Arena (AnswersUnlessLong LeavesRoom)

/-- A stream as it was registered, whose suppliers hold enough for a cycle, completes one in its first
period, if they do not fill it up: of what it both takes and yields they hold no more than leaves room for
the yield. Otherwise it completes none. -/
theorem advance_first_cycle {f : Factory} (hf : f.WellFormed) (hm : 1 ≤ f.config.bufferMultiplier) {i : Nat}
    {s : Stream} (hs : f.arena.stream? i = some s)
    (hfresh : s = Stream.fresh s.recipe s.inputs s.mult f.config.bufferMultiplier) (hinputs : s.recipe.inputs ≠ [])
    (hstocked : ∀ slot ∈ s.inputs,
      s.recipe.requiredOf slot.product * s.mult ≤ f.arena.held slot.supplier slot.product)
    {period : Int} (hperiod : s.recipe.period = .ok period) {st : Logged Arena} (hst : st.state = f.arena) :
    let act := Arena.advance i period f.config.bufferMultiplier
    AnswersUnlessLong st.least (act.outcome st) ∧
      ∃ k : Nat, k ≤ 1 ∧ (k = 1 ↔ f.arena.LeavesRoom f.config.bufferMultiplier s) ∧
        (∀ p, (act.after st).state.stock p =
          f.arena.stock p + k * (s.mult * (s.recipe.yieldOf p - s.recipe.requiredOf p))) ∧
        ∀ report, act.outcome st = .ok report → report.index = i ∧
          ∀ q, report.produced.getD q 0 = k * (s.recipe.yieldOf q * s.mult) := by
  have hready := hf.arena.ready
  obtain ⟨k, b, hturn⟩ := Arena.exists_turn (m := f.config.bufferMultiplier) hs
  obtain ⟨t, ht, _⟩ := (Arena.Kept.draw (m := f.config.bufferMultiplier) f.arena i s.inputs).stream i s hs
  have hpos : 1 ≤ period := by
    obtain ⟨n, hn, hpos⟩ := hready.period i s hs
    rwa [Except.ok.inj (hperiod.symm.trans hn)]
  have hclock : Clock.advance (s.next.getD period) period period = .ok (1, period) := by
    rw [congrArg Stream.next hfresh]
    change Clock.advance period period period = _
    rw [Clock.advance_eq_ok hpos (Int.le_refl period) (by omega), Int.sub_self, Int.zero_add, Int.emod_self,
      Int.sub_zero, Int.ediv_self (by omega)]
  have hattempts : (if s.recipe.isInert then 0 else (1 : Int).toNat) = 1 := by
    simp [Recipe.isInert, hinputs]
  have hcycled : Arena.Cycled f.config.bufferMultiplier i (if s.recipe.isInert then 0 else (1 : Int).toNat) st.state
      (.ok k) b := by
    rw [hattempts, hst]
    exact hturn.cycled (hready.bound i)
  have hwp := Arena.wp_advance (hst ▸ hs) hperiod hclock hcycled
  refine ⟨fun fault hfault => (hwp.of_outcome_error hfault).2.resolve_left nofun, k, ?_, ?_, fun p => ?_, ?_⟩
  · cases hturn with
    | stalls => exact Nat.zero_le 1
    | runs => exact Nat.le_refl 1
  · refine (hturn.eq_one_iff hs ht).trans ?_
    refine Arena.canProduce_draw_fresh (hf.arena.stream i s hs) hm hs hfresh ht (fun slot hslot => ?_) hstocked
    exact Nat.ne_of_lt (hf.arena.bindsEarlier.lt ⟨s, hs, slot, hslot, rfl⟩)
  · have hstate := (hwp.weaken (fun _ _ h => h.1.1) fun _ _ h => h.1.1).after
    rw [hstate, Arena.stock_withNext, hturn.stock hs p]
    rfl
  · intro report hreport
    obtain ⟨_, j, hj, rfl⟩ := hwp.of_outcome_ok hreport
    obtain rfl := Except.ok.inj hj
    exact ⟨rfl, Arena.getD_reportOf s i k⟩

/-- A mine that has dug so many ore, and then a washer, which takes ore and gives ore back. -/
def washery (dug : Nat) : List Call :=
  [.registerProduct "ore" "factory",
    .registerRecipe "mining" (.list []) (.list [.part (.text "ore") (.int dug)]) (.int 1),
    .registerRecipe "washing" (.list [.text "ore"]) (.list [.text "ore"]) (.int 1),
    .registerStream "mine" (.call (.text "mining") [] (.int 1)),
    .tick (.int 1),
    .registerStream "washer" (.call (.text "washing") [.stream (.text "mine")] (.int 1))]

/-- The washer of a washery. -/
def washer : Stream :=
  Stream.fresh (Recipe.every 1 Int.one_pos [⟨⟨0, 0⟩, 1⟩] [⟨⟨0, 0⟩, 1⟩]) [⟨⟨0, 0⟩, 0⟩] 1 8

/-- Seven ore leave room in the buffer of the washer, which holds eight. -/
theorem advance_first_cycle_washer : ∃ report,
    (Arena.advance 1 1 8).outcome { state := (built (washery 7)).state.arena, least := .info } = .ok report ∧
      report.produced.getD ⟨0, 0⟩ 0 = 1 := by
  have hwf := wellFormed_run (s := { state := empty {}, least := .info }) (wellFormed_empty {}) (washery 7)
  obtain ⟨hanswers, k, -, hk, -, hreport⟩ := @advance_first_cycle (built (washery 7)).state hwf (by decide +kernel) 1
    washer (by decide +kernel) (by decide +kernel) (by decide) (by decide +kernel) 1 rfl
    { state := (built (washery 7)).state.arena, least := .info } rfl
  have hcycles : (built (washery 7)).state.config.bufferMultiplier = 8 := by decide +kernel
  have hroom : (built (washery 7)).state.arena.LeavesRoom 8 washer := by decide +kernel
  rw [hcycles] at hanswers hk hreport
  obtain ⟨report, h⟩ := hanswers.exists_ok (by decide)
  refine ⟨report, h, ?_⟩
  rw [(hreport report h).2, hk.2 hroom]
  rfl

/-- Eight ore do not: the washer draws them all, and there it stands, for want of room. -/
theorem washer_stalls :
    (built (washery 8)).state.arena.stream? 1 = some washer ∧
      (∀ slot ∈ washer.inputs, washer.recipe.requiredOf slot.product * washer.mult ≤
        (built (washery 8)).state.arena.held slot.supplier slot.product) ∧
      ∃ report t, Arena.advance 1 1 8 { state := (built (washery 8)).state.arena } = .ok report t ∧
        report.produced.getD ⟨0, 0⟩ 0 = 0 :=
  ⟨by decide +kernel, by decide +kernel, Action.wp.exists_ok (by decide +kernel)⟩

end Factory

end Conveyor
