-- SUMMARY: Where the figures of an arena are modest, balancing ends with an answer.
import Conveyor.Proofs.Efficiency.Modest

/-!
# Balancing with an answer

Along bindings to earlier streams balancing never comes back to where it has been, and it asks for rates
and efficiencies only. All that could stop it are its own raises. A raise is no larger than what the copies
of the consumer ask for, so its supplier keeps within what its place in the supply chain allows.
-/

namespace Conveyor

open Binary64

namespace Stream

variable {F K : Nat} {s t : Stream}

theorem Raised.sized (h : s.Raised t) (hs : s.Sized F K) : t.Sized F K where
  period_le := h.period ▸ hs.period_le
  required_le := h.recipe ▸ hs.required_le
  yield_le := h.recipe ▸ hs.yield_le
  suppliers_le := h.suppliers ▸ hs.suppliers_le

end Stream

namespace Arena

variable {F D K : Nat} {a b : Arena} {i u : Nat} {s t : Stream}

theorem Raised.allowance_eq (h : a.Raised b) (i : Nat) : b.allowance F D i = a.allowance F D i := by
  rw [allowance, allowance, h.depth_eq]

namespace Modest

variable (ha : a.Modest F D K)
include ha

/-- Where there are bindings, there is room for a supplier. -/
theorem one_le_of_supplies (hu : a.Supplies u i) : 1 ≤ K := by
  obtain ⟨s, hs, slot, hslot, _⟩ := hu
  have hmem : slot.supplier ∈ s.suppliers := List.mem_eraseDups.2 (List.mem_map_of_mem hslot)
  exact (List.length_pos_of_mem hmem).trans_le (ha.sized i s hs).suppliers_le

/-- A raise to what is allowed leaves the figures modest. -/
theorem replace (hs : a.stream? u = some s) (h : s.Raised t) (ht : t.mult ≤ a.allowance F D u) :
    (a.modify u fun _ => t).Modest F D K where
  built := (Raised.replace hs h).built ha.built
  sized j r hr := by
    obtain ⟨r₀, hr₀, hraised⟩ := (Raised.replace hs h).exists_stream hr
    exact hraised.sized (ha.sized j r₀ hr₀)
  depth_le j r hr := by
    obtain ⟨r₀, hr₀, _⟩ := (Raised.replace hs h).exists_stream hr
    exact (Raised.replace hs h).depth_eq j ▸ ha.depth_le j r₀ hr₀
  copies_le j r hr := by
    rw [(Raised.replace hs h).allowance_eq]
    rw [stream?_modify] at hr
    split at hr
    next huj =>
      obtain ⟨_, _, rfl⟩ := Option.map_eq_some_iff.1 hr
      exact huj ▸ ht
    next => exact ha.copies_le j r hr

/-- Twice what the copies of a consumer ask for is still allowed one link back. -/
theorem le_allowance (hs : a.stream? i = some s) (hu : a.Supplies u i) {n : Int} {x : ℚ}
    (hx : x ≤ F * F * s.mult) (hn : n ≤ 2 * x + 1) : n ≤ a.allowance F D u := by
  have hone : (1 : ℚ) ≤ F := by exact_mod_cast ha.one_le hs
  have hmult := (ha.built.stream i s hs).steady.one_le_mult
  have hproduct : (1 : ℚ) ≤ F * F * s.mult :=
    one_le_mul_of_one_le_of_one_le (one_le_mul_of_one_le_of_one_le hone hone) hmult
  have hdepth := depth_lt ha.built.bindsEarlier hu
  have hle := ha.depth_le i s hs
  have hbound : (n : ℚ) ≤ (a.allowance F D u : Int) := by
    unfold allowance
    push_cast
    calc (n : ℚ) ≤ 2 * (F * F * s.mult) + 1 := hn.trans (by linarith)
      _ ≤ (2 * F) ^ 2 * s.mult := by linarith
      _ ≤ (2 * F) ^ 2 * (F * (2 * F) ^ (2 * (D - a.depth i))) :=
        mul_le_mul_of_nonneg_left (ha.mult_le hs) (by positivity)
      _ = F * (2 * F) ^ (2 * (D - a.depth i) + 2) := by ring
      _ ≤ F * (2 * F) ^ (2 * (D - a.depth u)) := by
        refine mul_le_mul_of_nonneg_left ?_ (Nat.cast_nonneg F)
        exact pow_le_pow_right₀ (one_le_two.trans (ha.two_le hs)) (by omega)
  exact Int.cast_le.1 hbound

/-- A supplier that falls short is found a multiplier, and one that is allowed. -/
theorem exists_raised (hroom : HasRoom F D K) (hs : a.stream? i = some s) (hu : a.Supplies u i)
    (ht : a.stream? u = some t) {optimal capacity : Rate} (hoptimal : optimal.Fits (2 * F) 1 (2 * D + 2))
    (hcapacity : capacity.Fits (2 * F) 1 (2 * D + 2)) (hsome : optimal.isZero = false)
    (hsome' : capacity.isZero = false) (hunits : optimal.flow * s.period ≤ F * s.mult)
    (hcopies : t.mult ≤ F * capacity.flow) (hshort : capacity.isShortOf optimal defaultEpsilon = .ok true) :
    ∃ needed raised, capacity.ratio optimal = .ok needed ∧
      raisedMultiplier t.mult needed defaultEpsilon = .ok raised ∧ raised ≤ a.allowance F D u := by
  have hF := ha.one_le hs
  have hc := one_le_two.trans (ha.two_le hs)
  have hpow {j : Nat} (hj : j ≤ 2 * D + 3) : (2 * F : ℚ) ^ j ≤ room := hroom.pow_le hF (by nlinarith)
  have hpos := hoptimal.flow_pos hsome
  have hpos' := hcapacity.flow_pos hsome'
  obtain ⟨needed, w, hratio, hw, hdrift⟩ := hcapacity.exists_ratio hc hoptimal hsome (hpow (by omega))
  have hflow : optimal.flow ≤ F * s.mult :=
    (le_mul_of_one_le_right hpos.le (ha.built.stream i s hs).one_le_period).trans hunits
  have hdemand : t.mult / (capacity.flow / optimal.flow) ≤ F * optimal.flow := by
    rw [div_div_eq_mul_div, div_le_iff₀ hpos', mul_right_comm]
    exact mul_le_mul_of_nonneg_right hcopies hpos.le
  have hbound : F * optimal.flow ≤ (2 * F) ^ (2 * D + 3) := by
    rw [pow_succ']
    refine mul_le_mul ?_ hoptimal.flow_le hpos.le (by positivity)
    exact le_mul_of_one_le_left (Nat.cast_nonneg F) one_le_two
  have hmult : (t.mult : ℚ) ≤ (2 * F) ^ (2 * D + 3) := by
    have hone : (1 : ℚ) ≤ 2 * (2 * F) ^ 0 := by norm_num
    exact (one_mul (t.mult : ℚ)).symm.trans_le (ha.mul_mult_le ht hone (by omega))
  have hshare : capacity.flow / optimal.flow ≤ 2 := by
    rw [div_le_iff₀ hpos, mul_comm]
    exact hcapacity.flow_le_of_short hc hoptimal hsome (hpow (by omega)) (hpow (by omega)) hshort
  obtain ⟨raised, hraised, hle⟩ := Rate.exists_raisedMultiplier (ha.built.stream u t ht).copies
    (hmult.trans (hpow (le_refl _))) hw hdrift (div_pos hpos' hpos) hshare
    (hdemand.trans (hbound.trans (hpow (le_refl _))))
  refine ⟨needed, raised, hratio, hraised, ha.le_allowance hs hu (hdemand.trans ?_) hle⟩
  rw [mul_assoc]
  exact mul_le_mul_of_nonneg_left hflow (Nat.cast_nonneg F)

/-- What a slot asks for is found, and if it asks for copies, so many are allowed. -/
theorem exists_ask (hroom : HasRoom F D K) (hs : a.stream? i = some s) {slot : Slot} (hslot : slot ∈ s.inputs) :
    ∃ ask, a.ask defaultEpsilon i slot = .ok ask ∧ ∀ n, ask = .copies n → n ≤ a.allowance F D slot.supplier := by
  have hu : a.Supplies slot.supplier i := ⟨s, hs, slot, hslot, rfl⟩
  have hlt : slot.supplier < a.size := (ha.built.bindsEarlier.lt hu).trans (List.getElem?_eq_some_iff.1 hs).1
  obtain ⟨t, ht⟩ : ∃ t, a.stream? slot.supplier = some t := ⟨_, List.getElem?_eq_getElem hlt⟩
  have hp := (ha.built.stream i s hs).mem_inputProducts hslot
  have hc := one_le_two.trans (ha.two_le hs)
  have hpow := hroom.pow_le (ha.one_le hs) (j := 1 + (2 * D + 2)) (by nlinarith)
  obtain ⟨inflow, optimal, hinflow, hoptimal, hfits, hsome, hunits⟩ := ha.exists_optimal hs hp
  obtain ⟨outflow, capacity, houtflow, hcapacity, hfits', hcopies⟩ := ha.exists_capacity ht slot.product
  have hcompares : a.Compares i slot t s inflow optimal outflow capacity :=
    ⟨ht, hs, hinflow, hoptimal, houtflow, hcapacity⟩
  cases hzero : capacity.isZero with
  | true => exact ⟨.unsupplied, hcompares.ask_eq_ok (.unsupplied hzero), nofun⟩
  | false =>
  obtain ⟨short, hshort⟩ := hfits'.exists_isShortOf hc hfits hpow hpow defaultEpsilon
  cases short with
  | true =>
    obtain ⟨needed, n, hneeded, hraised, hallowed⟩ :=
      ha.exists_raised hroom hs hu ht hfits hfits' hsome hzero hunits (hcopies hzero) hshort
    refine ⟨.copies n, hcompares.ask_eq_ok (.copies hzero hshort hneeded hraised), ?_⟩
    rintro _ ⟨⟩
    exact hallowed
  | false =>
    -- The supplier has copies enough, and may be starved itself.
    obtain ⟨realized, hrate, hrfits⟩ := ha.exists_rateOf hroom ht slot.product
    cases realized with
    | none => exact ⟨.nothing, hcompares.ask_eq_ok (.unmade hzero hshort hrate), nofun⟩
    | some realized =>
      have hK := ha.one_le_of_supplies hu
      obtain ⟨starved, hstarved⟩ := (hrfits realized rfl).exists_isShortOf hc hfits
        (hroom.pow_le (ha.one_le hs) (by nlinarith)) hpow defaultEpsilon
      cases starved with
      | true => exact ⟨.balance, hcompares.ask_eq_ok (.starved hzero hshort hrate hstarved), nofun⟩
      | false => exact ⟨.nothing, hcompares.ask_eq_ok (.served hzero hshort hrate hstarved), nofun⟩

/-- What is allowed has few enough digits to be written. -/
theorem isWritable (hroom : HasRoom F D K) (hs : a.stream? u = some s) {n : Int} (hn : 0 ≤ n)
    (hle : n ≤ a.allowance F D u) : IsWritable n := by
  have hF := ha.one_le hs
  have hpow : a.allowance F D u ≤ 2 ^ 1000 := by
    refine le_trans ?_ (le_trans (Nat.pow_le_pow_right (by omega) (?_ : 2 * D + 1 ≤ _)) hroom)
    · calc a.allowance F D u ≤ 2 * F * (2 * F) ^ (2 * (D - a.depth u)) := Nat.mul_le_mul_right _ (by omega)
        _ = (2 * F) ^ (2 * (D - a.depth u) + 1) := (Nat.pow_succ' ..).symm
        _ ≤ (2 * F) ^ (2 * D + 1) := Nat.pow_le_pow_right (by omega) (by omega)
    · nlinarith
  have hdigits : 2 ^ 1000 < Nat.pow 10 digitLimit := by decide +kernel
  unfold IsWritable
  omega

end Modest

end Arena

namespace Balancing

variable {α β : Type} {P : Balancing → Prop} {Q : α → Balancing → Prop}

/-- From a state with `P` the action answers, with `Q`. -/
abbrev Answers (P : Balancing → Prop) (act : Action Balancing α) (Q : α → Balancing → Prop) : Prop :=
  Action.Triple P act Q fun _ _ => False

theorem answers_ok {x : Except Fault β} {y : β} {k : β → Action Balancing α} (hx : x = .ok y)
    (hk : Answers P (k y) Q) : Answers P (liftM x >>= k) Q :=
  Action.Triple.bind_lift (fun _ hf => by rw [hx] at hf; cases hf) fun _ hy => Except.ok.inj (hx.symm.trans hy) ▸ hk

theorem answers_query {b : Balancing} {f : Arena → Except Fault β} {y : β} {k : β → Action Balancing α}
    (hf : f b.arena = .ok y) (hk : Answers (· = b) (k y) Q) : Answers (· = b) (query f >>= k) Q := by
  refine Action.Triple.bind (R := fun x c => x = y ∧ c = b) ?_ ?_
  · refine Action.Triple.bind_current fun c hc => ?_
    subst c
    exact Action.Triple.lift (fun x hx c hc => ⟨Except.ok.inj (hx.symm.trans hf), hc⟩)
      fun _ hx => by rw [hf] at hx; cases hx
  · rintro x s ⟨rfl, hs⟩
    exact hk s hs

theorem answers_report {e : Event} {k : Unit → Action Balancing α} (he : e.isWritable = true)
    (hk : Answers P (k ()) Q) : Answers P (Action.report e >>= k) Q := by
  refine Action.Triple.bind (R := fun _ => P) (fun s hs => ?_) fun _ => hk
  unfold Action.report
  cases Decidable.em (e.level.rank < s.least.rank) with
  | inl hlow =>
    rw [if_pos hlow]
    exact hs
  | inr hlow =>
    rw [if_neg hlow, if_pos he]
    exact hs

/-! ## Raises within bounds -/

/-- Raises since `a₀`, of streams that are there, have left the figures modest. -/
structure Kept (F D K : Nat) (a₀ : Arena) (b : Balancing) : Prop where
  raised : a₀.Raised b.arena
  modest : b.arena.Modest F D K
  changed : ∀ c ∈ b.changes, c.stream < a₀.size

/-- Suppliers of stream `i` wait for raises that are allowed. -/
structure Waiting (F D K : Nat) (a₀ : Arena) (i : Nat) (pending : Pending) (b : Balancing) : Prop where
  kept : Kept F D K a₀ b
  allowed : ∀ u n, pending.get? u = some n → a₀.Supplies u i ∧ n ≤ a₀.allowance F D u

variable {F D K : Nat} {a₀ : Arena} {i u : Nat} {s : Stream}

theorem Kept.raise {b : Balancing} {t t' : Stream} (h : Kept F D K a₀ b) (ht : b.arena.stream? u = some t)
    (hraised : t.Raised t') (hle : t'.mult ≤ a₀.allowance F D u) : Kept F D K a₀ (b.afterRaise u t t') where
  raised := h.raised.trans (.replace ht hraised)
  modest := h.modest.replace ht hraised (h.raised.allowance_eq u ▸ hle)
  changed := by
    refine List.forall_mem_append.2 ⟨h.changed, List.forall_mem_singleton.2 ?_⟩
    exact h.raised.size ▸ (List.getElem?_eq_some_iff.1 ht).1

theorem Waiting.raise {b : Balancing} {pending : Pending} {n : Int} (h : Waiting F D K a₀ i pending b)
    (hu : a₀.Supplies u i) (hn : n ≤ a₀.allowance F D u) : Waiting F D K a₀ i (pending.raise u n) b where
  kept := h.kept
  allowed v m hm := by
    rw [get?_raise] at hm
    split at hm
    next huv =>
      subst v
      obtain rfl := Option.some.inj hm
      refine ⟨hu, max_le hn ?_⟩
      unfold Table.getD
      cases hw : pending.get? u with
      | none => exact Int.natCast_nonneg _
      | some w => exact (h.allowed u w hw).2
    next => exact h.allowed v m hm

theorem answers_scale (hroom : HasRoom F D K) (hs : a₀.stream? u = some s) {n : Int}
    (hn : n ≤ a₀.allowance F D u) : Answers (Kept F D K a₀) (scale u n) fun _ => Kept F D K a₀ := by
  unfold scale
  refine Action.Triple.bind_current fun b hb => ?_
  obtain ⟨t, ht, _⟩ := hb.raised.stream u s hs
  have hcopies := (hb.modest.built.stream u t ht).copies
  refine answers_ok (Arena.stream_of_eq_some ht) ?_
  refine Action.Triple.ite (fun _ => Action.Triple.pure fun c hc => hc ▸ hb) fun hlt => ?_
  obtain ⟨t', hscale⟩ := Stream.exists_scale hcopies n
  have hnew : t'.mult = n := by rw [Stream.scale_eq_ok hscale]
  have hafter := hb.raise ht (Stream.raised_of_scale (Int.not_le.1 hlt) hscale) (hnew.trans_le hn)
  rw [afterRaise_of_scale hscale] at hafter
  refine answers_ok hscale ?_
  refine Action.Triple.bind (R := fun _ => Kept F D K a₀) (Action.Triple.assign fun _ _ => hafter) fun _ => ?_
  refine answers_report ?_ (Action.Triple.pure fun _ hc => hc)
  have hold := hb.modest.isWritable hroom ht (by omega) (hb.modest.copies_le u t ht)
  have hwritten := hb.modest.isWritable hroom ht (by omega) (hb.raised.allowance_eq u ▸ hn)
  simp only [Event.isWritable, hold, hwritten, decide_true, Bool.and_self]

/-! ## One slot -/

theorem answers_slot (hroom : HasRoom F D K) (hs : a₀.stream? i = some s) {slot : Slot} (hslot : slot ∈ s.inputs)
    (hwritable : IsWritable slot.product.id) {balance : Nat → Action Balancing Unit}
    (hbalance : Answers (Kept F D K a₀) (balance slot.supplier) fun _ => Kept F D K a₀) (pending : Pending) :
    Answers (Waiting F D K a₀ i pending) (Balancing.slot balance defaultEpsilon i pending slot)
      fun pending' => Waiting F D K a₀ i pending' := by
  refine Action.Triple.fix fun b hb => ?_
  obtain ⟨s', hs', hraised⟩ := hb.kept.raised.stream i s hs
  have hsupplies : a₀.Supplies slot.supplier i := ⟨s, hs, slot, hslot, rfl⟩
  have hdone : Answers (· = b) (pure pending : Action Balancing Pending)
      fun pending' => Waiting F D K a₀ i pending' := Action.Triple.pure fun _ hd => hd ▸ hb
  obtain ⟨ask, hask, hallowed⟩ := hb.kept.modest.exists_ask hroom hs' (hraised.inputs ▸ hslot)
  rw [slot_eq]
  refine answers_query hask ?_
  cases ask with
  | nothing => exact hdone
  | unsupplied =>
    refine answers_report ?_ hdone
    simp only [Event.isWritable, hwritable, decide_true]
  | copies n =>
    refine Action.Triple.pure fun _ hd => hd ▸ hb.raise hsupplies ?_
    exact hb.kept.raised.allowance_eq _ ▸ hallowed n rfl
  | balance =>
    refine Action.Triple.bind (R := fun _ => Kept F D K a₀) ?_ fun _ => Action.Triple.pure fun _ hd => ⟨hd, hb.allowed⟩
    exact hbalance.weaken (fun _ hd => hd ▸ hb.kept) (fun _ _ hd => hd) fun _ _ hd => hd

/-! ## The walk as a whole -/

/-- Balancing a stream answers. Bindings go to earlier streams, so the induction is on the index, and no
stream on the path comes again. -/
theorem answers_balance (hroom : HasRoom F D K) (hs : a₀.stream? i = some s)
    (hwritable : ∀ j t, a₀.stream? j = some t → ∀ slot ∈ t.inputs, IsWritable slot.product.id) (n : Nat)
    (path : List Nat) (hpath : ∀ j ∈ path, i < j) :
    Answers (Kept F D K a₀) (balance defaultEpsilon n path i) fun _ => Kept F D K a₀ := by
  induction i using Nat.strong_induction_on generalizing s path with
  | _ i ih =>
  rw [balance, dif_neg fun hmem => Nat.lt_irrefl i (hpath i hmem)]
  refine Action.Triple.fix fun b hb => ?_
  have hmodest := hb.modest
  obtain ⟨s', hs', hraised⟩ := hb.raised.stream i s hs
  obtain ⟨e, _, he, _⟩ := hmodest.rated_efficiency hroom hs'
  refine answers_query he (Action.Triple.ite (fun _ => Action.Triple.pure fun _ hd => hd ▸ hb) fun _ => ?_)
  split
  swap
  · exact Action.Triple.pure fun _ hd => hd ▸ hb
  have hsupplier {u : Nat} (hu : a₀.Supplies u i) : u < i ∧ ∃ t, a₀.stream? u = some t := by
    have hlt := hmodest.built.bindsEarlier.lt (hb.raised.supplies_iff.2 hu)
    exact ⟨hlt, _, List.getElem?_eq_getElem (hlt.trans (List.getElem?_eq_some_iff.1 hs).1)⟩
  have hdeeper {u : Nat} (hu : a₀.Supplies u i) :
      Answers (Kept F D K a₀) (balance defaultEpsilon n (i :: path) u) fun _ => Kept F D K a₀ := by
    obtain ⟨hlt, t, ht⟩ := hsupplier hu
    exact ih u hlt ht (i :: path) (List.forall_mem_cons.2 ⟨hlt, fun j hj => hlt.trans (hpath j hj)⟩)
  refine answers_query (Arena.stream_of_eq_some hs') ?_
  rw [hraised.inputs]
  refine Action.Triple.bind (R := fun pending => Waiting F D K a₀ i pending) ?_ fun pending => ?_
  · refine Action.Triple.weaken (P := Waiting F D K a₀ i ∅) (Action.Triple.foldlM (fun pending slot hslot =>
      answers_slot hroom hs hslot (hwritable i s hs slot hslot) (hdeeper ⟨s, hs, slot, hslot, rfl⟩) pending) ∅)
      (fun d hd => ?_) (fun _ _ hd => hd) fun _ _ hd => hd
    refine ⟨hd ▸ hb, fun u n hn => ?_⟩
    rw [Table.get?_empty] at hn
    cases hn
  refine Action.Triple.fix fun c hc => Action.Triple.weaken (P := Kept F D K a₀)
    (Action.Triple.forM fun raise hraise => ?_) (fun d hd => hd ▸ hc.kept) (fun _ _ hd => hd) fun _ _ hd => hd
  obtain ⟨hu, hallowed⟩ := hc.allowed raise.1 raise.2 (Table.get?_eq_some_iff.2 hraise)
  obtain ⟨_, t, ht⟩ := hsupplier hu
  refine Action.Triple.bind (answers_scale hroom ht hallowed) fun made => ?_
  exact Action.Triple.ite (fun _ => hdeeper hu) fun _ => Action.Triple.pure fun _ hd => hd

end Balancing

namespace Arena

variable {F D K : Nat} {a : Arena} {i : Nat} {s : Stream}

/-- Where the figures are modest, balancing answers with raises of streams that are there, and they still
are modest then. -/
theorem Modest.answers_solve (ha : a.Modest F D K) (hroom : HasRoom F D K) (hs : a.stream? i = some s)
    (hwritable : ∀ j t, a.stream? j = some t → ∀ slot ∈ t.inputs, IsWritable slot.product.id) :
    Action.Triple (· = a) (solve i defaultEpsilon)
      (fun changes b => b.Modest F D K ∧ ∀ c ∈ changes, c.stream < a.size) fun _ _ => False := by
  unfold solve
  refine Action.Triple.focus
    (S := fun changes b => b.arena.Modest F D K ∧ ∀ c ∈ changes, c.stream < a.size) (F := fun _ _ => False) ?_
    (fun _ _ _ _ hb => hb) fun _ _ _ _ hf => hf
  intro a' ha'
  subst a'
  refine Action.Triple.bind_current fun b hb => ?_
  subst b
  refine Action.Triple.bind (R := fun _ => Balancing.Kept F D K a) ?_ fun _ => ?_
  · exact (Balancing.answers_balance hroom hs hwritable _ [] fun _ => nofun).weaken
      (fun _ hb => hb ▸ ⟨.refl _, ha, nofun⟩) (fun _ _ hb => hb) fun _ _ hf => hf
  · refine Action.Triple.bind_current fun b hb => Action.Triple.pure fun c hc => ?_
    subst c
    exact ⟨hb.modest, hb.changed⟩

end Arena

end Conveyor
