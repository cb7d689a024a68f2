-- SUMMARY: Balancing a stream again changes nothing, unless rounding decides a comparison.
import Conveyor.Proofs.Efficiency.Answering
import Conveyor.Proofs.Factory.Sustained

/-!
# Balancing again

After one balancing call its target is balanced, in exact figures and up to the roundings. A second call
computes on doubles. As long as none of its comparisons is a close call, it finds nothing to do: what
exactly is enough, but for the roundings, it finds enough as well. It does not matter whether every slot
can be served, or how efficient the target is by then.
-/

namespace Conveyor

open Binary64

namespace Arena

/-! ## What a second call compares -/

/-- Whether stream `s` asks for more through a slot than all copies of its supplier could give. -/
def lacksCopies (ε : Float) (a : Arena) (s : Stream) (slot : Slot) : Except Fault Bool := do
  let t ← a.stream slot.supplier
  let outflow ← t.recipe.outflowOf slot.product
  let capacity ← outflow.times t.mult
  let optimal ← optimalOf s slot.product
  capacity.isShortOf optimal ε

/-- Whether stream `s` asks for more through a slot than its supplier delivers. -/
def lacksSupply (ε : Float) (a : Arena) (s : Stream) (slot : Slot) : Except Fault Bool := do
  match ← a.rateOf slot.supplier slot.product with
  | none => return false
  | some realized =>
    let optimal ← optimalOf s slot.product
    realized.isShortOf optimal ε

/-- No comparison that balancing stream `s`, at index `i`, comes to is a close call: each has an answer,
and what is enough, but for the roundings, is found to be enough. The period is short enough for the
doubles to tell the demand less the tolerance from nothing. -/
structure Sure (ε : Float) (a : Arena) (i : Nat) (s : Stream) : Prop where
  period : 8 * tiny * s.period ≤ value (1.0 - ε)
  efficiency : ∃ e, a.efficiency i = .ok e ∧ (a.Runs (value (1.0 - ε)) i → 1.0 - ε ≤ e)
  copies : ∀ slot ∈ s.inputs, ∃ lacks, a.lacksCopies ε s slot = .ok lacks ∧
    (a.Able (value (1.0 - ε)) slot.supplier slot.product (s.demand slot.product * s.mult) → lacks = false)
  supply : ∀ slot ∈ s.inputs, ∃ lacks, a.lacksSupply ε s slot = .ok lacks ∧
    (a.Delivers (value (1.0 - ε)) slot.supplier slot.product (s.demand slot.product * s.mult) → lacks = false)

instance (θ : ℚ) (a : Arena) (i : Nat) : Decidable (a.Runs θ i) := inferInstanceAs (Decidable (_ ≤ _))

instance (θ : ℚ) (a : Arena) (u : Nat) (p : Product) (demand : ℚ) : Decidable (a.Able θ u p demand) :=
  inferInstanceAs (Decidable (_ ≤ _))

instance (θ : ℚ) (a : Arena) (u : Nat) (p : Product) (demand : ℚ) : Decidable (a.Delivers θ u p demand) :=
  inferInstanceAs (Decidable (_ ≤ _))

instance (ε : Float) (a : Arena) (i : Nat) (s : Stream) : Decidable (a.Sure ε i s) :=
  decidable_of_iff (_ ∧ _ ∧ _ ∧ _) ⟨fun h => ⟨h.1, h.2.1, h.2.2.1, h.2.2.2⟩,
    fun h => ⟨h.period, h.efficiency, h.copies, h.supply⟩⟩

end Arena

namespace Stream

/-- Long before a demand gets too small for the doubles, it is noticed whatever the tolerance is. -/
theorem Built.notices {s : Stream} {ε : Float} {η θ : ℚ} (hs : s.Built) (hε : Rate.Tolerance ε η θ)
    (hperiod : 8 * tiny * s.period ≤ θ) : s.Notices ε := by
  intro p hp optimal hoptimal
  obtain ⟨hflow, n, hticks⟩ := Arena.optimalOf_eq_ok hs.steady hoptimal
  refine Rate.noticed_of_le hε hticks ?_
  have hpos := hs.steady.period_pos
  have hrequired : (1 : ℚ) ≤ s.recipe.requiredOf p := by
    exact_mod_cast Recipe.requiredOf_pos hs.positive hp
  rw [hflow, demand, ← mul_div_right_comm, ← mul_div_assoc, le_div_iff₀ hpos]
  refine hperiod.trans (le_mul_of_one_le_right hε.pos.le ?_)
  exact one_le_mul_of_one_le_of_one_le hrequired hs.steady.one_le_mult

end Stream

namespace Balancing

variable {i : Nat} {s : Stream} {ε : Float}

/-! ## A walk with nothing to do -/

/-- From an arena balancing answers and leaves everything as it is. -/
abbrev Rests (b : Balancing) {α : Type} (act : Action Balancing α) (x : α) : Prop :=
  Answers (· = b) act fun y c => y = x ∧ c = b

/-- There is nothing to do about what a slot asks for: it asks for no copies of its supplier `u`, and to have
that balanced only where it is balanced already. -/
def Idle (θ : ℚ) (a : Arena) (u : Nat) : Ask → Prop
  | .nothing | .unsupplied => True
  | .copies _ => False
  | .balance => a.Balanced θ u

/-- A slot that is served asks for nothing to be done. -/
theorem exists_idle_of_serves {a : Arena} {slot : Slot} (ha : a.Built) (hs : a.stream? i = some s)
    (hslot : slot ∈ s.inputs) (hsure : a.Sure ε i s)
    (hserves : a.Serves (value (1.0 - ε)) slot.supplier slot.product (s.demand slot.product * s.mult)) :
    ∃ ask, a.ask ε i slot = .ok ask ∧ Idle (value (1.0 - ε)) a slot.supplier ask := by
  obtain ⟨short, hlacks, hable⟩ := hsure.copies slot hslot
  obtain ⟨starved, hsupply, hdelivers⟩ := hsure.supply slot hslot
  obtain ⟨t, ht, h⟩ := Result.bind_eq_ok.1 hlacks
  obtain ⟨outflow, houtflow, h⟩ := Result.bind_eq_ok.1 h
  obtain ⟨capacity, hcapacity, h⟩ := Result.bind_eq_ok.1 h
  obtain ⟨optimal, hoptimalOf, hshort⟩ := Result.bind_eq_ok.1 h
  obtain ⟨inflow, hinflow, hoptimal⟩ := Result.bind_eq_ok.1 hoptimalOf
  have hcompares : a.Compares i slot t s inflow optimal outflow capacity :=
    ⟨Arena.stream_eq_ok ht, hs, hinflow, hoptimal, houtflow, hcapacity⟩
  cases hzero : capacity.isZero with
  | true => exact ⟨.unsupplied, hcompares.ask_eq_ok (.unsupplied hzero), trivial⟩
  | false =>
  have hpos := Arena.output_pos ha.steady hcompares.supplier houtflow (Rate.isZero_of_times hcapacity hzero)
  obtain ⟨able, below⟩ := hserves hpos
  obtain rfl := hable able
  obtain ⟨realized, hrate, h⟩ := Result.bind_eq_ok.1 hsupply
  cases realized with
  | none => exact ⟨.nothing, hcompares.ask_eq_ok (.unmade hzero hshort hrate), trivial⟩
  | some realized =>
    obtain ⟨_, hoptimal', hstarved⟩ := Result.bind_eq_ok.1 h
    obtain rfl := Except.ok.inj (hoptimalOf.symm.trans hoptimal')
    cases starved with
    | false => exact ⟨.nothing, hcompares.ask_eq_ok (.served hzero hshort hrate hstarved), trivial⟩
    | true =>
      refine ⟨.balance, hcompares.ask_eq_ok (.starved hzero hshort hrate hstarved), below fun hd => ?_⟩
      exact Bool.false_ne_true (hdelivers hd).symm

theorem rests_slot {b : Balancing} {balance : Nat → Action Balancing Unit} {slot : Slot}
    (hb : b.arena.Built) (hs : b.arena.stream? i = some s) (hslot : slot ∈ s.inputs)
    (hsure : b.arena.Sure ε i s) (hwritable : IsWritable slot.product.id)
    (hserves : b.arena.Serves (value (1.0 - ε)) slot.supplier slot.product (s.demand slot.product * s.mult))
    (hbalance : b.arena.Balanced (value (1.0 - ε)) slot.supplier → Rests b (balance slot.supplier) ())
    (pending : Pending) : Rests b (Balancing.slot balance ε i pending slot) pending := by
  have hdone : Rests b (pure pending : Action Balancing Pending) pending :=
    Action.Triple.pure fun _ hc => ⟨rfl, hc⟩
  obtain ⟨ask, hask, hidle⟩ := exists_idle_of_serves hb hs hslot hsure hserves
  rw [slot_eq]
  refine answers_query hask ?_
  cases ask with
  | nothing => exact hdone
  | unsupplied =>
    refine answers_report ?_ hdone
    simp only [Event.isWritable, hwritable, decide_true]
  | copies n => exact hidle.elim
  | balance => exact Action.Triple.bind (hbalance hidle) fun _ => Action.Triple.pure fun _ hc => ⟨rfl, hc.2⟩

/-- Slots that are all served ask for nothing. -/
theorem rests_slots {b : Balancing} {balance : Nat → Action Balancing Unit} (hb : b.arena.Built)
    (hs : b.arena.stream? i = some s) (hsure : b.arena.Sure ε i s)
    (hwritable : ∀ slot ∈ s.inputs, IsWritable slot.product.id)
    (hserves : ∀ slot ∈ s.inputs,
      b.arena.Serves (value (1.0 - ε)) slot.supplier slot.product (s.demand slot.product * s.mult))
    (hbalance : ∀ u, b.arena.Supplies u i → b.arena.Balanced (value (1.0 - ε)) u → Rests b (balance u) ()) :
    Rests b (s.inputs.foldlM (Balancing.slot balance ε i) ∅) ∅ := by
  refine Action.Triple.weaken (P := fun c => (∅ : Pending) = ∅ ∧ c = b) (Action.Triple.foldlM
    (I := fun pending c => pending = (∅ : Pending) ∧ c = b) (fun pending slot hslot => ?_) ∅)
    (fun _ hc => ⟨rfl, hc⟩) (fun _ _ hc => hc) fun _ _ hc => hc
  refine Action.Triple.fix fun c hc => ?_
  obtain ⟨rfl, rfl⟩ := hc
  exact rests_slot hb hs hslot hsure (hwritable slot hslot) (hserves slot hslot)
    (hbalance slot.supplier ⟨s, hs, slot, hslot, rfl⟩) ∅

/-- Balancing a stream that is balanced changes nothing. Bindings go to earlier streams, so the induction
is on the index, and no stream on the path comes again. -/
theorem rests_balance {b : Balancing} (hb : b.arena.Built) (hi : b.arena.Balanced (value (1.0 - ε)) i)
    (hs : b.arena.stream? i = some s)
    (hsure : ∀ j t, Relation.ReflTransGen b.arena.Supplies j i → b.arena.stream? j = some t → b.arena.Sure ε j t)
    (hwritable : ∀ j t, b.arena.stream? j = some t → ∀ slot ∈ t.inputs, IsWritable slot.product.id) (n : Nat)
    (path : List Nat) (hpath : ∀ j ∈ path, i < j) : Rests b (balance ε n path i) () := by
  induction i using Nat.strong_induction_on generalizing s path with
  | _ i ih =>
  rw [balance, dif_neg fun hmem => Nat.lt_irrefl i (hpath i hmem)]
  obtain ⟨e, he, hruns⟩ := (hsure i s .refl hs).efficiency
  have hdone : Rests b (pure () : Action Balancing Unit) () := Action.Triple.pure fun _ hc => ⟨rfl, hc⟩
  refine answers_query he (Action.Triple.ite (fun _ => hdone) fun hless => ?_)
  split
  swap
  · exact hdone
  refine answers_query (Arena.stream_of_eq_some hs) ?_
  have hserves : ∀ slot ∈ s.inputs, b.arena.Serves (value (1.0 - ε)) slot.supplier slot.product
      (s.demand slot.product * s.mult) := fun slot hslot => by
    cases hi with
    | runs _ h => exact absurd (hruns h) hless
    | served hs' able below =>
      obtain rfl := Option.some.inj (hs.symm.trans hs')
      exact fun hpos => ⟨able slot hslot hpos, below slot hslot hpos⟩
  have hslots : Rests b (s.inputs.foldlM (Balancing.slot (balance ε n (i :: path)) ε i) ∅) ∅ := by
    refine rests_slots hb hs (hsure i s .refl hs) (hwritable i s hs) hserves fun u hu hbelow => ?_
    have hlt := hb.bindsEarlier.lt hu
    have hsize : u < b.arena.size := hlt.trans (List.getElem?_eq_some_iff.1 hs).1
    refine ih u hlt hbelow (List.getElem?_eq_getElem hsize) (fun j t hj => hsure j t (hj.tail hu)) (i :: path) ?_
    exact List.forall_mem_cons.2 ⟨hlt, fun j hj => hlt.trans (hpath j hj)⟩
  refine Action.Triple.bind hslots fun pending => Action.Triple.fix fun c hc => ?_
  obtain ⟨rfl, rfl⟩ := hc
  exact hdone

end Balancing

namespace Arena

variable {a : Arena} {i : Nat} {ε : Float}

/-- Balancing a target that is balanced answers without a raise and leaves the arena as it is. -/
theorem rests_solve (ha : a.Built) (hi : a.Balanced (value (1.0 - ε)) i)
    (hsure : ∀ j t, Relation.ReflTransGen a.Supplies j i → a.stream? j = some t → a.Sure ε j t)
    (hwritable : ∀ j t, a.stream? j = some t → ∀ slot ∈ t.inputs, IsWritable slot.product.id) :
    Action.Triple (· = a) (solve i ε) (fun changes b => changes = [] ∧ b = a) fun _ _ => False := by
  unfold solve
  refine Action.Triple.focus (S := fun changes b => changes = [] ∧ b.arena = a) (F := fun _ _ => False) ?_
    (fun _ _ _ _ h => h) fun _ _ _ _ h => h
  rintro _ rfl
  refine Action.Triple.bind_current fun b hb => ?_
  subst b
  obtain ⟨s, hs⟩ := hi.exists_stream
  refine Action.Triple.bind (Balancing.rests_balance ha hi hs hsure hwritable _ [] nofun) fun _ => ?_
  refine Action.Triple.bind_current fun b hb => Action.Triple.pure fun c hc => ?_
  obtain ⟨-, rfl⟩ := hb
  subst c
  exact ⟨rfl, rfl⟩

/-- Balancing a target twice is as good as once: the second call answers without a raise, and leaves the
arena as the first has left it, as long as no comparison is a close call then. Slots that cannot be served
do not matter, and neither does it whether the target reaches full efficiency. -/
theorem solve_again {c d : Logged Arena} {changes : List Change} (ha : c.state.Built) (hzero : 0.0 ≤ ε)
    (hone : ε < 1.0) (h : solve i ε c = .ok changes d)
    (hsure : ∀ j s, Relation.ReflTransGen d.state.Supplies j i → d.state.stream? j = some s → d.state.Sure ε j s)
    (hwritable : ∀ j s, d.state.stream? j = some s → ∀ slot ∈ s.inputs, IsWritable slot.product.id) :
    ∃ d', solve i ε d = .ok [] d' ∧ d'.state = d.state := by
  obtain ⟨η, θ, hε⟩ := Rate.exists_tolerance hzero hone
  have hraised := solve_raised h
  rw [← hε.rest.value_eq] at hε
  have hperiod : ∀ j s, Relation.ReflTransGen c.state.Supplies j i → c.state.stream? j = some s →
      8 * tiny * s.period ≤ value (1.0 - ε) := by
    intro j s hj hs
    obtain ⟨t, ht, hst⟩ := hraised.stream j s hs
    rw [← hst.period]
    exact (hsure j t (Relation.ReflTransGen.mono (fun _ _ => hraised.supplies_iff.2) j i hj) ht).period
  have hbalanced : d.state.Balanced (value (1.0 - ε)) i := by
    refine solve_balanced ha hε (fun j t hj ht => ?_) (fun a j s e ha' hj hs _ => ?_) h
    · have hle := (hperiod j t hj.to_reflTransGen ht).trans hε.le_slack
      have htwo : slack ^ 1 ≤ 2 := slack_pow_le_two (by decide)
      refine le_of_mul_le_mul_left ?_ (mul_pos four_pos tiny_pos)
      calc 4 * tiny * t.period ≤ 1 := by linarith
        _ = 4 * tiny * limit := by linarith [tiny_mul_limit]
    · obtain ⟨t, ht, hraised'⟩ := ha'.exists_stream hs
      exact ((ha'.built ha).stream j s hs).notices hε (hraised'.period ▸ hperiod j t hj ht)
  have hrests := rests_solve (hraised.built ha) hbalanced hsure hwritable d rfl
  cases hagain : solve i ε d with
  | ok changes' d' =>
    rw [hagain] at hrests
    obtain ⟨rfl, hstate⟩ := hrests
    exact ⟨d', rfl, hstate⟩
  | error f d' =>
    rw [hagain] at hrests
    exact hrests.elim

/-- A smelter that needs four times the ore its mine gives, and a flux that is nowhere made. A workshop
needs twice the iron of one smelter. -/
def fluxless : Arena :=
  ⟨[Stream.fresh (Recipe.every 4 (by decide) [] [⟨⟨0, 0⟩, 1⟩]) [] 1 8,
    Stream.fresh (Recipe.every 1 Int.one_pos [⟨⟨0, 0⟩, 1⟩, ⟨⟨9, 0⟩, 1⟩] [⟨⟨1, 0⟩, 1⟩])
      [⟨⟨0, 0⟩, 0⟩, ⟨⟨9, 0⟩, 0⟩] 1 8,
    Stream.fresh (Recipe.every 5 (by decide) [⟨⟨1, 0⟩, 10⟩] [⟨⟨2, 0⟩, 1⟩]) [⟨⟨1, 0⟩, 1⟩] 1 8]⟩

theorem fluxless_built : fluxless.Built where
  bindsEarlier := by decide
  stream
    | 0, _, rfl => ⟨⟨4, rfl, rfl⟩, ⟨by decide, by decide⟩, rfl, by decide⟩
    | 1, _, rfl => ⟨⟨1, rfl, rfl⟩, ⟨by decide, by decide⟩, rfl, by decide⟩
    | 2, _, rfl => ⟨⟨5, rfl, rfl⟩, ⟨by decide, by decide⟩, rfl, by decide⟩

/-- The first call raises the smelter and the mine. The workshop makes nothing then either, for want of
flux, and still the second call finds nothing to raise. -/
theorem solve_again_fluxless :
    ∃ c d, fluxless.Built ∧ solve 2 defaultEpsilon { state := fluxless } = .ok [⟨1, 1, 2⟩, ⟨0, 1, 8⟩] c ∧
      c.state.efficiency 2 = .ok 0.0 ∧ solve 2 defaultEpsilon c = .ok [] d ∧ d.state = c.state := by
  have hrun : (match solve 2 defaultEpsilon { state := fluxless } with
      | .ok changes c => decide (changes = [⟨1, 1, 2⟩, ⟨0, 1, 8⟩] ∧ (∃ e, c.state.efficiency 2 = .ok e ∧ e = 0.0) ∧
          ∀ e ∈ c.state.streams.zipIdx, c.state.Sure defaultEpsilon e.2 e.1 ∧
            ∀ slot ∈ e.1.inputs, IsWritable slot.product.id)
      | .error _ _ => false) = true := by
    decide +kernel
  cases h : solve 2 defaultEpsilon { state := fluxless } with
  | error f c => rw [h] at hrun; cases hrun
  | ok changes c =>
    rw [h] at hrun
    obtain ⟨rfl, ⟨_, hidle, rfl⟩, hsure⟩ := of_decide_eq_true hrun
    have hall : ∀ j s, c.state.stream? j = some s → c.state.Sure defaultEpsilon j s ∧
        ∀ slot ∈ s.inputs, IsWritable slot.product.id :=
      fun j s hs => hsure (s, j) (List.mem_zipIdx_iff_getElem?.2 hs)
    obtain ⟨d, hagain, hstate⟩ := solve_again fluxless_built (by decide +kernel) (by decide +kernel) h
      (fun j s _ hs => (hall j s hs).1) fun j s hs => (hall j s hs).2
    exact ⟨c, d, fluxless_built, rfl, hidle, hagain, hstate⟩

end Arena

namespace Factory

/-- Mines, smelters, mills and a plant that needs iron both as gears and as it is, and rubies, which are
nowhere made. -/
def engineWorks : List Call :=
  [.registerProduct "ore" "factory", .registerProduct "iron" "factory", .registerProduct "gear" "factory",
    .registerProduct "engine" "factory", .registerProduct "ruby" "factory",
    .registerRecipe "mining" (.list []) (.list [.part (.text "ore") (.int 3)]) (.int 11),
    .registerRecipe "smelting" (.list [.text "ore"]) (.list [.part (.text "iron") (.int 6)]) (.int 11),
    .registerRecipe "milling" (.list [.part (.text "iron") (.int 16)]) (.list [.text "gear"]) (.int 2),
    .registerRecipe "assembly" (.list [.part (.text "gear") (.int 3), .part (.text "iron") (.int 49), .text "ruby"])
      (.list [.text "engine"]) (.int 22),
    .registerStream "mine" (.call (.text "mining") [] (.int 1)),
    .registerStream "smelter" (.call (.text "smelting") [.stream (.text "mine")] (.int 3)),
    .registerStream "mill" (.call (.text "milling") [.stream (.text "smelter")] (.int 2)),
    .registerStream "plant" (.call (.text "assembly")
      [.stream (.text "mill"), .stream (.text "smelter"), .stream (.text "mine")] (.int 1))]

/-- With a tolerance of a quarter, the mills deliver exactly three quarters of what the plant asks for. The
first call finds this enough, and adds one smelter for the plant. With it the mine keeps the smelters at
three quarters of their efficiency, so the same delivery comes out of other roundings, and the second call
finds it short. -/
theorem solve_raises_again :
    let a := (built engineWorks).state.arena
    a.Built ∧ (0.0 : Float) ≤ 0.25 ∧ (0.25 : Float) < 1.0 ∧
      ∃ c d, Arena.solve 3 0.25 { state := a } = .ok [⟨1, 3, 4⟩] c ∧
        Arena.solve 3 0.25 c = .ok [⟨1, 4, 30⟩, ⟨0, 1, 10⟩] d := by
  intro a
  have hrun : (match Arena.solve 3 0.25 { state := a } with
      | .ok changes c => decide (changes = [⟨1, 3, 4⟩]) &&
        (match Arena.solve 3 0.25 c with
          | .ok changes _ => decide (changes = [⟨1, 4, 30⟩, ⟨0, 1, 10⟩])
          | .error _ _ => false)
      | .error _ _ => false) = true := by
    decide +kernel
  have ha : a.Built := (wellFormed_run (wellFormed_empty {}) engineWorks).arena
  refine ⟨ha, by decide +kernel, by decide +kernel, ?_⟩
  cases h : Arena.solve 3 0.25 { state := a } with
  | error f c => rw [h] at hrun; cases hrun
  | ok changes c =>
    rw [h] at hrun
    simp only [Bool.and_eq_true, decide_eq_true_eq] at hrun
    obtain ⟨rfl, hrun⟩ := hrun
    cases hagain : Arena.solve 3 0.25 c with
    | error f d => rw [hagain] at hrun; cases hrun
    | ok changes d =>
      rw [hagain] at hrun
      obtain rfl := of_decide_eq_true hrun
      exact ⟨c, d, rfl, hagain⟩

end Factory

end Conveyor
