-- SUMMARY: Who counts as a supplier of a product, and who is drawn on for it.
import Conveyor.Proofs.Efficiency.Range
import Conveyor.Proofs.Factory.Sustained
import Conveyor.Proofs.Lag

/-!
# What is counted and what is drawn

A query adds up what the suppliers of a stream give of a product, each once, whatever they are bound for.
Time moves a product along the slots that are for it, and along no others. So what a supplier gives is
counted even where it is bound for something else, and then none of it is ever drawn.
-/

namespace Conveyor

namespace Arena

variable {a : Arena} {i u : Nat} {s : Stream} {p : Product} {F total : Rate} {g : Nat → Except Fault Float}

/-! ## What is counted -/

/-- The recipe of stream `u` gives the product. -/
def gives (a : Arena) (u : Nat) (p : Product) : Bool :=
  (a.stream? u).any fun t => p ∈ t.recipe.outputs.map Part.product

/-- The suppliers of a stream that give a product, whatever they are bound for. -/
def counted (a : Arena) (s : Stream) (p : Product) : List Nat := s.suppliers.filter (a.gives · p)

theorem mem_suppliers : u ∈ s.suppliers ↔ ∃ q, ⟨q, u⟩ ∈ s.inputs := by
  rw [Stream.suppliers, List.mem_eraseDups, List.mem_map]
  constructor
  · rintro ⟨slot, hslot, rfl⟩
    exact ⟨slot.product, hslot⟩
  · rintro ⟨q, hslot⟩
    exact ⟨_, hslot, rfl⟩

theorem mem_counted : u ∈ a.counted s p ↔ a.gives u p = true ∧ ∃ q, ⟨q, u⟩ ∈ s.inputs := by
  rw [counted, List.mem_filter, mem_suppliers, and_comm]

theorem nodup_counted (a : Arena) (s : Stream) (p : Product) : (a.counted s p).Nodup :=
  (nodup_eraseDups _).filter _

theorem realizedBy_of_not_gives (hu : u < a.size) (h : a.gives u p = false) :
    realizedBy g a u p = .ok none := by
  have ht : a.stream? u = some a.streams[u] := List.getElem?_eq_getElem hu
  rw [gives, ht, Option.any_some, decide_eq_false_iff_not] at h
  unfold realizedBy
  rw [stream_of_eq_some ht]
  exact Result.bind_eq_ok.2 ⟨_, rfl, Result.bind_eq_ok.2 ⟨Rate.zero, Recipe.flowOf_of_not_mem h, rfl⟩⟩

theorem realizedBy_of_gives (ha : a.Steady) (h : a.gives u p = true) : realizedBy g a u p ≠ .ok none := by
  intro hnone
  obtain ⟨t, ht, hp⟩ := (Option.any_eq_true _ _).1 h
  have hpos := (ha u t ht).output_pos (of_decide_eq_true hp)
  rw [← output_eq ht, output_eq_zero_of_none ha hnone] at hpos
  exact lt_irrefl 0 hpos

/-- If some of the suppliers have a rate and the others have none, the rates of those add up. -/
theorem addUp_eq_ok_iff {rate : Nat → Except Fault (Option Rate)} {keep : Nat → Bool} {us : List Nat}
    (hnone : ∀ u ∈ us, keep u = false → rate u = .ok none) (hsome : ∀ u ∈ us, keep u = true → rate u ≠ .ok none) :
    addUp rate total us = .ok F ↔
      ∃ rates, List.Forall₂ (fun u r => rate u = .ok (some r)) (us.filter keep) rates ∧
        rates.foldlM Rate.add total = .ok F := by
  induction us generalizing total with
  | nil =>
    constructor
    · exact fun h => ⟨[], .nil, h⟩
    · rintro ⟨rates, hrates, h⟩
      obtain rfl := List.forall₂_nil_left_iff.1 hrates
      exact h
  | cons u us ih =>
    obtain ⟨hu, hnone⟩ := List.forall_mem_cons.1 hnone
    obtain ⟨hu', hsome⟩ := List.forall_mem_cons.1 hsome
    have hrest (next : Rate) : addUp rate next us = .ok F ↔ _ := ih hnone hsome
    unfold addUp at hrest ⊢
    rw [List.foldlM_cons]
    cases hkeep : keep u with
    | false =>
      rw [hu hkeep, List.filter_cons_of_neg (ne_true_of_eq_false hkeep)]
      exact hrest total
    | true =>
      rw [List.filter_cons_of_pos hkeep]
      constructor
      · intro h
        obtain ⟨next, hnext, h⟩ := Result.bind_eq_ok.1 h
        obtain ⟨r, hr, hadd⟩ := Result.bind_eq_ok.1 hnext
        cases r with
        | none => exact absurd hr (hu' hkeep)
        | some ρ =>
          obtain ⟨rates, hrates, hsum⟩ := (hrest next).1 h
          exact ⟨ρ :: rates, .cons hr hrates, Result.bind_eq_ok.2 ⟨next, hadd, hsum⟩⟩
      · rintro ⟨rates, hrates, hsum⟩
        obtain ⟨ρ, others, hρ, hothers, rfl⟩ := List.forall₂_cons_left_iff.1 hrates
        obtain ⟨next, hadd, hsum⟩ := Result.bind_eq_ok.1 hsum
        exact Result.bind_eq_ok.2
          ⟨next, Result.bind_eq_ok.2 ⟨some ρ, hρ, hadd⟩, (hrest next).2 ⟨others, hothers, hsum⟩⟩

/-- What arrives of a product is the sum of what all suppliers give of it. -/
theorem suppliedRate_eq_ok_iff (ha : a.Built) (hs : a.stream? i = some s) :
    a.suppliedRate i p = .ok F ↔
      ∃ rates, List.Forall₂ (fun u r => a.rateOf u p = .ok (some r)) (a.counted s p) rates ∧
        Rate.sum rates = .ok F := by
  have hbound (u : Nat) (hu : u ∈ s.suppliers) : u < a.size :=
    Nat.lt_trans (ha.bindsEarlier.lt (supplies_of_mem hs hu)) (List.getElem?_eq_some_iff.1 hs).1
  rw [suppliedRate_eq fun u _ => ha.bindsEarlier.acyclicFrom u, suppliedBy_eq hs]
  simp only [rateOf_eq]
  exact addUp_eq_ok_iff (fun u hu => realizedBy_of_not_gives (hbound u hu))
    fun u _ => realizedBy_of_gives ha.steady

/-- What arrives of a product over what the stream would take of it. -/
def supplyRatio (a : Arena) (i : Nat) (s : Stream) (p : Product) : Except Fault Float := do
  let optimal ← optimalOf s p
  let supplied ← a.suppliedRate i p
  supplied.ratio optimal

theorem ratioBy_eq_supplyRatio (ha : a.Built) (hs : a.stream? i = some s) (hp : p ∈ s.recipe.inputProducts) :
    ratioBy a.efficiency a i s p = some <$> a.supplyRatio i s p := by
  have hsteady := (ha.stream i s hs).steady
  obtain ⟨n, hn⟩ := hsteady.timed
  obtain ⟨inflow, hinflow, -⟩ := Recipe.inflowOf_eq_ok hn hsteady.positive p
  obtain ⟨optimal, htimes⟩ : ∃ optimal, inflow.times s.mult = .ok optimal := ⟨_, Rate.times_of_pos hsteady.copies⟩
  have hrate : s.recipe.rate.isZero = false := by
    rw [Rate.isZero, hn.amount]
    rfl
  have hsome : optimal.isZero = false := Rate.isZero_times (Recipe.isZero_flowOf hrate hsteady.positive.inputs
    (Recipe.mem_inputProducts.1 hp) hinflow) hsteady.copies htimes
  have hoptimal : optimalOf s p = .ok optimal := Result.bind_eq_ok.2 ⟨inflow, hinflow, htimes⟩
  have hratio : ratioBy a.efficiency a i s p =
      if optimal.isZero then .ok none
      else suppliedBy a.efficiency a i p >>= fun supplied => some <$> supplied.ratio optimal := by
    unfold ratioBy
    rw [hinflow]
    change (inflow.times s.mult >>= _) = _
    rw [htimes]
    rfl
  rw [hratio, hsome, supplyRatio, hoptimal, suppliedRate_eq fun u _ => ha.bindsEarlier.acyclicFrom u]
  exact (map_bind _ _ _).symm

/-- The efficiency of a stream with bindings is the least of these ratios. -/
theorem efficiency_eq_leastRatio (ha : a.Built) (hs : a.stream? i = some s) (hleaf : s.isLeaf = false) :
    a.efficiency i = leastRatio <$> s.recipe.inputProducts.mapM (a.supplyRatio i s) := by
  have hsome (ps : List Product) (hps : ∀ p ∈ ps, p ∈ s.recipe.inputProducts) :
      ps.mapM (ratioBy a.efficiency a i s) = List.map some <$> ps.mapM (a.supplyRatio i s) := by
    induction ps with
    | nil => rfl
    | cons p ps ih =>
      obtain ⟨hp, hps⟩ := List.forall_mem_cons.1 hps
      rw [List.mapM_cons, List.mapM_cons, ratioBy_eq_supplyRatio ha hs hp, ih hps]
      cases a.supplyRatio i s p with
      | error f => rfl
      | ok x => cases ps.mapM (a.supplyRatio i s) <;> rfl
  rw [efficiency_of_suppliers (ha.bindsEarlier.acyclicFrom i) hs hleaf, efficiencyBy, hsome _ fun _ hp => hp]
  cases s.recipe.inputProducts.mapM (a.supplyRatio i s) with
  | error f => rfl
  | ok ratios =>
    change Except.ok (leastRatio ((ratios.map some).filterMap id)) = Except.ok (leastRatio ratios)
    rw [List.filterMap_map, Function.id_comp, List.filterMap_some]

end Arena

/-! ## What is drawn -/

namespace Ledger

open Arena (Kept)

variable {a : Arena} {b c : Ledger} {i u : Nat} {s s' : Stream} {slot : Slot} {p : Product} {m ticks : Int}

/-- What is booked since the arena `a`: the moves are along slots of their takers, and what a stream has more
or less is what it drew, what was drawn from it, and what its own cycles made. -/
structure Booked (a : Arena) (b : Ledger) : Prop where
  kept : Kept (List.range a.size) a b.arena
  bound : ∀ move ∈ b.moves, ∃ s, a.stream? move.taker = some s ∧ ⟨move.product, move.supplier⟩ ∈ s.inputs
  account : ∀ u, ∃ k : Nat, ∀ p, b.account u p = a.held u p + k * a.net u p

theorem triple_pullSlot (b : Ledger) (m : Int) (i : Nat) {slot : Slot} (hlt : slot.supplier < b.arena.size) :
    Action.Triple (· = b) (pullSlot m i slot) (fun _ c => c = b.afterDraw m i slot) fun _ _ => False := by
  have hdraw : Action.Triple (· = b.arena) (Arena.pullSlot m i slot) (fun _ arena => arena = b.arena.drawSlot m i slot)
      fun _ _ => False := by
    have hpost : Action.Triple (· = b.arena.openInput i slot.product m)
        (Action.update fun arena : Arena => arena.transfer i slot.supplier slot.product)
        (fun _ arena => arena = b.arena.drawSlot m i slot) fun _ _ => False :=
      Action.Triple.update fun _ harena => harena ▸ rfl
    refine Action.Triple.bind (R := fun _ arena => arena = b.arena.openInput i slot.product m)
      (Action.Triple.update fun _ harena => harena ▸ rfl) fun _ => Action.Triple.bind_current fun arena harena => ?_
    subst arena
    refine Action.Triple.bind_lift (fun f hf => ?_) fun _ _ => hpost
    have hsome : (b.arena.openInput i slot.product m).stream? slot.supplier = some _ :=
      List.getElem?_eq_getElem (hlt.trans_eq (Arena.size_modify _ _ _).symm)
    rw [Arena.stream_of_eq_some hsome] at hf
    cases hf
  refine Action.Triple.bind_current fun before hbefore => ?_
  subst before
  refine Action.Triple.bind (R := fun _ c => c = { b with arena := b.arena.drawSlot m i slot }) ?_ fun _ =>
    Action.Triple.update fun c hc => hc ▸ rfl
  refine Action.Triple.focus (S := fun _ arena => arena = b.arena.drawSlot m i slot) (F := fun _ _ => False)
    (fun c hc => hc ▸ hdraw) ?_ fun _ _ _ _ => id
  rintro c rfl _ arena rfl
  rfl

namespace Booked

theorem start (a : Arena) : Booked a ⟨a, []⟩ where
  kept := Kept.refl _ a
  bound _ hmove := absurd hmove List.not_mem_nil
  account u := ⟨0, fun p => by
    change a.held u p + 0 - 0 = _
    omega⟩

theorem afterDraw (ha : a.BindsEarlier) (h : Booked a b) (hs : a.stream? i = some s) (hslot : slot ∈ s.inputs) :
    Booked a (b.afterDraw m i slot) := by
  obtain ⟨t, ht, -⟩ := h.kept.stream i s hs
  have hne : slot.supplier ≠ i := Nat.ne_of_lt (ha.lt ⟨s, hs, slot, hslot, rfl⟩)
  refine ⟨h.kept.andThen (Kept.drawSlot b.arena i slot) (List.nil_subset _), ?_, fun u => ?_⟩
  · exact List.forall_mem_cons.2 ⟨⟨s, hs, hslot⟩, h.bound⟩
  · obtain ⟨k, hk⟩ := h.account u
    exact ⟨k, fun p => (account_afterDraw ht hne u p).trans (hk p)⟩

theorem produce (h : Booked a b) (hs : b.arena.stream? i = some s) (hproduce : s.produce? = some s') :
    Booked a { b with arena := b.arena.modify i fun _ => s' } := by
  refine ⟨h.kept.andThen (Kept.produce hs hproduce) (List.nil_subset _), h.bound, fun u => ?_⟩
  obtain ⟨k, hk⟩ := h.account u
  refine ⟨if u = i then k + 1 else k, fun p => ?_⟩
  rw [account_produce hs hproduce, hk]
  split
  next hu => rw [hu, h.kept.net, Int.natCast_add, Int.natCast_one, Int.add_mul, Int.one_mul, Int.add_assoc]
  next => rw [Int.add_zero]

theorem withNext (h : Booked a b) (hlt : i < a.size) (next : Int) :
    Booked a { b with arena := b.arena.withNext i next } := by
  refine ⟨h.kept.andThen (Kept.withNext b.arena i next) fun _ hu => ?_, h.bound, fun u => ?_⟩
  · exact List.mem_singleton.1 hu ▸ List.mem_range.2 hlt
  · obtain ⟨k, hk⟩ := h.account u
    exact ⟨k, fun p => (account_withNext b i next u p).trans (hk p)⟩

/-- A change of the arena alone is booked if the books still fit it. -/
theorem keeps_assign {next : Arena} (h : Booked a { b with arena := next }) :
    Action.Triple (· = b) (inArena (Action.assign next)) (fun _ => Booked a) fun _ => Booked a := by
  refine Action.Triple.focus (S := fun _ arena => arena = next) (F := fun _ _ => False)
    (fun _ _ => Action.Triple.assign fun _ _ => rfl) ?_ fun _ _ _ _ => nofun
  rintro c rfl _ arena rfl
  exact h

section

variable (ha : a.BindsEarlier)

include ha

theorem keeps_pull : Action.Keeps (Booked a) (pull m i) := by
  refine Action.Keeps.bind_current fun b hb => Action.Keeps.bind_lift fun t ht => Action.Keeps.forM fun slot hslot => ?_
  obtain ⟨s, hs, hsame, -⟩ := hb.kept.stream_of_after (Arena.stream_eq_ok ht)
  rw [hsame.inputs] at hslot
  refine Action.Triple.fix fun c hc => ?_
  have hlt : slot.supplier < c.arena.size := by
    rw [hc.kept.size]
    exact Nat.lt_trans (ha.lt ⟨s, hs, slot, hslot, rfl⟩) (List.getElem?_eq_some_iff.1 hs).1
  exact (triple_pullSlot c m i hlt).weaken (fun _ => id) (fun _ _ hd => hd ▸ hc.afterDraw ha hs hslot) fun _ _ => nofun

theorem keeps_attempt : Action.Keeps (Booked a) (attempt m i) := by
  refine Action.Keeps.bind (keeps_pull ha) fun _ => Action.Triple.bind_current fun b hb =>
    Action.Triple.bind_lift (fun _ _ _ hc => hc ▸ hb) fun s hs => ?_
  cases hproduce : s.produce? with
  | none => exact Action.Triple.pure fun _ hc => hc ▸ hb
  | some s' =>
    exact Action.Triple.bind (keeps_assign (hb.produce (Arena.stream_eq_ok hs) hproduce)) fun _ => Action.Keeps.pure

theorem keeps_runCycles (n completed : Nat) : Action.Keeps (Booked a) (runCycles m i n completed) := by
  induction n generalizing completed with
  | zero => exact Action.Keeps.pure
  | succ n ih =>
    refine Action.Keeps.bind (keeps_attempt ha) fun done => ?_
    cases done with
    | true => exact ih (completed + 1)
    | false => exact Action.Keeps.pure

theorem keeps_advance (i : Nat) : Action.Keeps (Booked a) (advance i ticks m) := by
  refine Action.Triple.bind_current fun b hb => Action.Triple.bind_lift (fun _ _ _ hc => hc ▸ hb) fun t ht =>
    Action.Triple.bind_lift (fun _ _ _ hc => hc ▸ hb) fun period _ =>
    Action.Triple.bind_lift (fun _ _ _ hc => hc ▸ hb) fun (crossed, next) _ => ?_
  obtain ⟨s, hs, -⟩ := hb.kept.stream_of_after (Arena.stream_eq_ok ht)
  have hlt : i < a.size := (List.getElem?_eq_some_iff.1 hs).1
  refine Action.Triple.bind (keeps_assign (hb.withNext hlt next)) fun _ =>
    Action.Keeps.bind (keeps_runCycles ha _ 0) fun completed => Action.Keeps.bind ?_ fun _ => Action.Keeps.pure
  refine Action.Triple.fix fun c hc => Action.Triple.focus (S := fun _ arena => arena = c.arena)
    (F := fun _ arena => arena = c.arena) (fun d hd => hd ▸ Arena.keeps_reportProduced i _) ?_ ?_
  all_goals
    rintro d rfl _ arena rfl
    exact hc

theorem keeps_tick (order : TickOrder) : Action.Keeps (Booked a) (tick ticks order m) :=
  Action.Keeps.bind_current fun _ _ => Action.Keeps.bind_lift fun _ _ => Action.Keeps.mapM fun i _ => keeps_advance ha i

end

end Booked

end Ledger

namespace Factory

/-- Wherever a new factory has been called to, what arrives of a product at a stream is what all of its suppliers
give that give any, each once and whatever they are bound for, and the efficiency of the stream is found from
that. Time moves the product into the stream along the slots that are for it, and nothing else but its own cycles
changes what it has of it, besides what others draw from it. -/
theorem suppliers_counted_and_drawn (config : Config) (least : Level) (calls : List Call) {i : Nat} {s : Stream}
    {p : Product} :
    let a := (run calls { state := empty config, least }).state.arena
    a.stream? i = some s → p ∈ s.recipe.inputProducts →
      ((a.counted s p).Nodup ∧ (∀ u, u ∈ a.counted s p ↔ a.gives u p = true ∧ ∃ q, ⟨q, u⟩ ∈ s.inputs) ∧
        (∀ F, a.suppliedRate i p = .ok F ↔
          ∃ rates, List.Forall₂ (fun u r => a.rateOf u p = .ok (some r)) (a.counted s p) rates ∧
            Rate.sum rates = .ok F) ∧
        a.efficiency i = Arena.leastRatio <$> s.recipe.inputProducts.mapM (a.supplyRatio i s)) ∧
      ∀ st : Logged Arena, st.state = a → ∀ ticks order m,
        let books := ((Ledger.tick ticks order m).after { st with state := ⟨a, []⟩ }).state
        books.arena = ((Arena.tick ticks order m).after st).state ∧
          (∀ move ∈ books.moves, move.taker = i → move.product = p → ⟨p, move.supplier⟩ ∈ s.inputs) ∧
          ∃ k : Nat, books.arena.held i p =
            a.held i p + books.taken i p - books.drawn i p + k * (s.mult * (s.recipe.yieldOf p - s.recipe.requiredOf p)) := by
  intro a hs hp
  have ha : a.Built := (wellFormed_run (wellFormed_empty config) calls).arena
  have hleaf : s.isLeaf = false := by
    rw [← Bool.not_eq_true]
    intro hleaf
    rw [(ha.stream i s hs).inputProducts_eq_nil hleaf] at hp
    cases hp
  refine ⟨⟨Arena.nodup_counted a s p, fun u => Arena.mem_counted, fun F => Arena.suppliedRate_eq_ok_iff ha hs,
    Arena.efficiency_eq_leastRatio ha hs hleaf⟩, ?_⟩
  intro st hst ticks order m books
  have herases : books.arena = ((Arena.tick ticks order m).after st).state :=
    ((Ledger.coupled_tick order { st with state := ⟨a, []⟩ } st (by rw [← hst]; rfl)).2).arena_eq
  have hbooked : Ledger.Booked a books :=
    (Ledger.Booked.keeps_tick ha.bindsEarlier order).after (s := { st with state := ⟨a, []⟩ }) (Ledger.Booked.start a)
  refine ⟨herases, ?_, ?_⟩
  · rintro move hmove rfl rfl
    obtain ⟨t, ht, hslot⟩ := hbooked.bound move hmove
    obtain rfl := Option.some.inj (hs.symm.trans ht)
    exact hslot
  · obtain ⟨k, hk⟩ := hbooked.account i
    refine ⟨k, ?_⟩
    have haccount := hk p
    rw [Arena.net_eq hs] at haccount
    unfold Ledger.account Stream.net at haccount
    omega

/-- A mine that digs an ore in four ticks, a pit that digs coal and ore in each, and a forge that takes ore from
the mine and coal from the pit. -/
def forging : List Call :=
  [.registerProduct "ore" "factory", .registerProduct "coal" "factory", .registerProduct "steel" "factory",
    .registerRecipe "mining" (.list []) (.list [.text "ore"]) (.int 4),
    .registerRecipe "digging" (.list []) (.list [.text "coal", .text "ore"]) (.int 1),
    .registerRecipe "forging" (.list [.text "ore", .text "coal"]) (.list [.text "steel"]) (.int 1),
    .registerStream "mine" (.call (.text "mining") [] (.int 1)),
    .registerStream "pit" (.call (.text "digging") [] (.int 1)),
    .registerStream "forge" (.call (.text "forging") [.stream (.text "mine"), .stream (.text "pit")] (.int 1))]

/-- The forge. -/
def forge : Stream :=
  Stream.fresh (Recipe.every 1 Int.one_pos [⟨⟨0, 0⟩, 1⟩, ⟨⟨1, 0⟩, 1⟩] [⟨⟨2, 0⟩, 1⟩]) [⟨⟨0, 0⟩, 0⟩, ⟨⟨1, 0⟩, 1⟩] 1 8

/-- The ore of the pit is counted, and in nine ticks none of it comes to the forge. -/
theorem suppliers_counted_and_drawn_forging :
    let a := (built forging).state.arena
    1 ∈ a.counted forge ⟨0, 0⟩ ∧
      ∀ move ∈ ((Ledger.tick 9 .suppliersFirst 8).after { state := ⟨a, []⟩ }).state.moves,
        move.taker = 2 → move.product = ⟨0, 0⟩ → ⟨⟨0, 0⟩, move.supplier⟩ ∈ forge.inputs := by
  intro a
  obtain ⟨⟨-, hcounted, -⟩, hdrawn⟩ := @suppliers_counted_and_drawn {} .info forging 2 forge ⟨0, 0⟩
    (by decide +kernel) (by decide)
  refine ⟨(hcounted 1).2 ⟨by decide +kernel, ⟨1, 0⟩, by decide⟩, ?_⟩
  exact (hdrawn { state := a } rfl 9 .suppliersFirst 8).2.1

/-- The forge is bound to the mine alone for its ore, which digs one in four ticks. Five in four ticks are
counted, and the forge has all of its efficiency. -/
theorem forging_counts_unbound :
    let a := (built forging).state.arena
    a.stream? 2 = some forge ∧ ⟨0, 0⟩ ∈ forge.recipe.inputProducts ∧
      (∃ F, a.suppliedRate 2 ⟨0, 0⟩ = .ok F ∧
        ¬ ∃ rates, List.Forall₂ (fun u r => a.rateOf u ⟨0, 0⟩ = .ok (some r))
          (forge.suppliers.filter fun u => a.gives u ⟨0, 0⟩ && decide (⟨⟨0, 0⟩, u⟩ ∈ forge.inputs)) rates ∧
          Rate.sum rates = .ok F) ∧
      ∃ e, a.efficiency 2 = .ok e ∧ e = 1.0 := by
  intro a
  have hfive : (a.suppliedRate 2 ⟨0, 0⟩).toOption.map Rate.amount = some 5 := by decide +kernel
  have hbound : (forge.suppliers.filter fun u => a.gives u ⟨0, 0⟩ && decide (⟨⟨0, 0⟩, u⟩ ∈ forge.inputs)) = [0] := by
    decide +kernel
  have hone : ((a.rateOf 0 ⟨0, 0⟩).toOption.bind fun r => r.bind fun r =>
      (Rate.sum [r]).toOption.map Rate.amount) = some 1 := by
    decide +kernel
  have hfull : ((a.efficiency 2).toOption.map fun e => decide (e = 1.0)) = some true := by decide +kernel
  obtain ⟨F, hF, hamount⟩ := Option.map_eq_some_iff.1 hfive
  obtain ⟨e, he, heq⟩ := Option.map_eq_some_iff.1 hfull
  refine ⟨by decide +kernel, by decide, ⟨F, Result.toOption_eq_some.1 hF, ?_⟩,
    e, Result.toOption_eq_some.1 he, of_decide_eq_true heq⟩
  rintro ⟨rates, hrates, hsum⟩
  rw [hbound] at hrates
  obtain ⟨r, rest, hr, hrest, rfl⟩ := List.forall₂_cons_left_iff.1 hrates
  obtain rfl := List.forall₂_nil_left_iff.1 hrest
  rw [Result.toOption_eq_some.2 hr] at hone
  change (Rate.sum [r]).toOption.map Rate.amount = some 1 at hone
  rw [Result.toOption_eq_some.2 hsum, Option.map_some, hamount] at hone
  cases hone

end Factory

end Conveyor
