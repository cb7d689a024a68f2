-- SUMMARY: A walk that balances a stream leaves it balanced, and every supplier that it has raised on the way.
import Conveyor.Proofs.Efficiency.Balanced

/-!
# The walk

While stream `i` is balanced, whatever is raised below it is balanced again. What a slot asks for is
either served when the slot has been looked at, or waits for a raise that will serve it; a raise that has
been overtaken finds its supplier raised already, and so balanced.
-/

namespace Conveyor

open Binary64

namespace Arena

/-! ## What a walk has done so far -/

/-- Raises lead from one arena to the other, none of stream `i` or a later one, and what has been raised is
balanced. -/
structure Since (θ : ℚ) (c : Arena) (i : Nat) (a : Arena) : Prop extends c.Rebalanced θ a where
  unchanged : ∀ j, i ≤ j → a.stream? j = c.stream? j

variable {a b c : Arena} {i u : Nat} {s t : Stream} {θ : ℚ}

theorem Since.refl (c : Arena) (i : Nat) : c.Since θ i c := ⟨.refl c, fun _ _ => rfl⟩

theorem Since.trans (h : c.Since θ i b) (h' : b.Since θ i a) (hc : c.Built) : c.Since θ i a where
  toRebalanced := h.toRebalanced.trans h'.toRebalanced hc
  unchanged j hj := (h'.unchanged j hj).trans (h.unchanged j hj)

theorem Since.mono (h : c.Since θ u a) (hu : u ≤ i) : c.Since θ i a where
  toRebalanced := h.toRebalanced
  unchanged j hj := h.unchanged j (Nat.le_trans hu hj)

/-- A supplier that is raised and then balanced has changed nothing above it. -/
theorem Since.raise (hu : u < i) (hs : b.stream? u = some s) (hst : s.Raised t)
    (h : (b.modify u fun _ => t).Since θ u a) (hbalanced : a.Balanced θ u) : b.Since θ i a := by
  have hsame {j : Nat} (hj : j ≠ u) : (b.modify u fun _ => t).stream? j = b.stream? j := by
    rw [stream?_modify, if_neg hj.symm]
  refine ⟨⟨.trans (.replace hs hst) h.raised, fun j hmore => ?_⟩, fun j hj => ?_⟩
  · cases Decidable.em (j = u) with
    | inl heq => exact heq ▸ hbalanced
    | inr hne => exact h.balanced j (copies_congr (hsame hne) ▸ hmore)
  · have hlt : u < j := Nat.lt_of_lt_of_le hu hj
    exact (h.unchanged j (Nat.le_of_lt hlt)).trans (hsame (Nat.ne_of_gt hlt))

end Arena

/-- All that the stream demands is above nothing as a double, less the tolerance. -/
def Stream.Notices (s : Stream) (ε : Float) : Prop :=
  ∀ p ∈ s.recipe.inputProducts, ∀ optimal, Arena.optimalOf s p = .ok optimal → optimal.Noticed ε

namespace Balancing

variable {c : Arena} {i u : Nat} {s t : Stream} {p : Product} {ε : Float} {η θ : ℚ}

/-- Balancing stream `u` from `b` leaves it balanced, if it answers. -/
def Balances (θ : ℚ) (u : Nat) (act : Action Balancing Unit) (b : Balancing) : Prop :=
  Action.Yields (· = b) act fun _ b' => b.arena.Since θ u b'.arena ∧ b'.arena.Balanced θ u

/-! ## Looking at the slots -/

/-- A raise of supplier `u` that waits will serve a demand. -/
def Waits (θ : ℚ) (a : Arena) (pending : Pending) (u : Nat) (p : Product) (demand : ℚ) : Prop :=
  ∃ n, pending.get? u = some n ∧ θ * demand ≤ a.output u p * n * slack ^ 8

/-- Some slots of stream `s`, at index `i`, have been looked at since `c`. -/
structure Looked (θ : ℚ) (c : Arena) (i : Nat) (s : Stream) (done : List Slot) (pending : Pending)
    (b : Balancing) : Prop where
  since : c.Since θ i b.arena
  above : ∀ u n, pending.get? u = some n → c.Supplies u i ∧ c.copies u < n
  settled : ∀ slot ∈ done,
    b.arena.Serves θ slot.supplier slot.product (s.demand slot.product * s.mult) ∨
    Waits θ b.arena pending slot.supplier slot.product (s.demand slot.product * s.mult)

theorem get?_raise (pending : Pending) (u v : Nat) (n : Int) :
    (pending.raise u n).get? v =
      if u = v then some (max n (pending.getD u 0)) else pending.get? v :=
  Table.get?_insert _ _ _ _

namespace Looked

variable {done : List Slot} {pending : Pending} {b b' : Balancing} {slot : Slot}

theorem served (h : Looked θ c i s done pending b)
    (hslot : b.arena.Serves θ slot.supplier slot.product (s.demand slot.product * s.mult)) :
    Looked θ c i s (slot :: done) pending b where
  since := h.since
  above := h.above
  settled := List.forall_mem_cons.2 ⟨.inl hslot, h.settled⟩

/-- Of two raises of one supplier the larger waits, and serves what either does. -/
theorem raise {n : Int} (h : Looked θ c i s done pending b) (hc : c.Built)
    (hu : c.Supplies slot.supplier i) (hn : b.arena.copies slot.supplier < n)
    (henough : θ * (s.demand slot.product * s.mult) ≤
      b.arena.output slot.supplier slot.product * n * slack ^ 8) :
    Looked θ c i s (slot :: done) (pending.raise slot.supplier n) b where
  since := h.since
  above v m hm := by
    rw [get?_raise] at hm
    split at hm
    next heq =>
      subst heq
      obtain rfl := Option.some.inj hm
      have hless := Int.lt_of_le_of_lt (h.since.raised.copies_le slot.supplier) hn
      exact ⟨hu, Int.lt_of_lt_of_le hless (Int.le_max_left _ _)⟩
    · exact h.above v m hm
  settled := by
    have hbuilt := h.since.raised.built hc
    have hlarger {p : Product} {D : ℚ} {m : Int} (hm : m ≤ max n (pending.getD slot.supplier 0))
        (hD : θ * D ≤ b.arena.output slot.supplier p * m * slack ^ 8) :
        Waits θ b.arena (pending.raise slot.supplier n) slot.supplier p D := by
      refine ⟨_, (get?_raise _ _ _ _).trans (if_pos rfl), hD.trans ?_⟩
      refine mul_le_mul_of_nonneg_right ?_ (slack_pow_pos 8).le
      exact mul_le_mul_of_nonneg_left (Int.cast_le.2 hm) (Arena.output_nonneg hbuilt _ _)
    refine List.forall_mem_cons.2 ⟨.inr (hlarger (Int.le_max_left _ _) henough), fun other hother => ?_⟩
    refine (h.settled other hother).imp_right ?_
    rintro ⟨m, hm, hD⟩
    cases Decidable.em (slot.supplier = other.supplier) with
    | inl heq =>
      rw [← heq] at hm hD ⊢
      refine hlarger ?_ hD
      rw [Table.getD, hm]
      exact Int.le_max_right _ _
    | inr hne => exact ⟨m, (get?_raise _ _ _ _).trans ((if_neg hne).trans hm), hD⟩

/-- Raises of suppliers that are balanced again leave what has been settled. -/
theorem step (h : Looked θ c i s done pending b) (hc : c.Built) (hsince : b.arena.Since θ i b'.arena) :
    Looked θ c i s done pending b' where
  since := h.since.trans hsince hc
  above := h.above
  settled slot hslot := (h.settled slot hslot).imp
    (Arena.Serves.mono hsince.toRebalanced (h.since.raised.built hc))
    fun ⟨n, hn, hD⟩ => ⟨n, hn, hsince.raised.output_eq _ _ ▸ hD⟩

end Looked

/-! ## One slot -/

theorem bind_query_yields {α β : Type} {b : Balancing} {f : Arena → Except Fault β}
    {k : β → Action Balancing α} {Q : α → Balancing → Prop}
    (hk : ∀ x, f b.arena = .ok x → Action.Yields (· = b) (k x) Q) :
    Action.Yields (· = b) (query f >>= k) Q :=
  bind_query (P := fun _ => True) trivial hk

/-- What the rates that a slot compares are worth. -/
theorem capacity_eq_ok {a : Arena} (ha : a.Built) (ht : a.stream? u = some t) (hperiod : t.period ≤ limit)
    {outflow capacity : Rate} (houtflow : t.recipe.outflowOf p = .ok outflow)
    (hcapacity : outflow.times t.mult = .ok capacity) :
    capacity.Ordinary ∧ capacity.flow = a.output u p * t.mult := by
  have hbuilt := ha.stream u t ht
  obtain ⟨n, hn⟩ := hbuilt.timed
  obtain ⟨ρ, hρ, hrate⟩ := Recipe.outflowOf_eq_ok hn hbuilt.positive p
  obtain rfl := Except.ok.inj (houtflow.symm.trans hρ)
  have hvalue : t.period = n := by
    rw [Stream.period, hn.ticks]
    rfl
  have hordinary : outflow.Ordinary := by
    refine ⟨hrate.ticks ▸ trivial, ?_⟩
    rw [hrate.flow_eq, ← hvalue, ← hrate.amount]
    exact Rate.quotient_measured outflow hbuilt.steady.period_pos hperiod
  refine ⟨hordinary.times hcapacity, ?_⟩
  rw [Rate.flow_times hcapacity, Arena.output_eq ht, Stream.output, hvalue, hrate.flow_eq]

/-- What settles a demand for a product of stream `u`: nothing if it is served, or a raise that is enough, or
to balance the stream if it has the copies. -/
def Settles (θ : ℚ) (a : Arena) (u : Nat) (p : Product) (demand : ℚ) : Ask → Prop
  | .nothing | .unsupplied => a.Serves θ u p demand
  | .copies n => a.copies u < n ∧ θ * demand ≤ a.output u p * n * slack ^ 8
  | .balance => a.Able θ u p demand

/-- What a slot asks for settles its demand. -/
theorem settles_of_ask {a : Arena} {slot : Slot} {ask : Ask} (hε : Rate.Tolerance ε η θ) (ha : a.Built)
    (hs : a.stream? i = some s) (hslot : slot ∈ s.inputs)
    (hperiod : ∀ t, a.stream? slot.supplier = some t → t.period ≤ limit) (hnotices : s.Notices ε)
    (hask : a.ask ε i slot = .ok ask) :
    Settles θ a slot.supplier slot.product (s.demand slot.product * s.mult) ask := by
  obtain ⟨t, s', inflow, optimal, outflow, capacity, hcompares, hweighs⟩ := Arena.exists_compares hask
  obtain rfl := Option.some.inj (hs.symm.trans hcompares.consumer)
  have ht := hcompares.supplier
  have hsbuilt := ha.stream i s hs
  have htbuilt := ha.stream _ t ht
  have hoptimal : Arena.optimalOf s slot.product = .ok optimal :=
    Result.bind_eq_ok.2 ⟨inflow, hcompares.takes, hcompares.takesAll⟩
  have hnoticed := hnotices slot.product (hsbuilt.mem_inputProducts hslot) optimal hoptimal
  obtain ⟨hdemand, n, hticks⟩ := Arena.optimalOf_eq_ok hsbuilt.steady hoptimal
  obtain ⟨hordinary, hflow⟩ := capacity_eq_ok ha ht (hperiod t ht) hcompares.makes hcompares.makesAll
  have hcopies : a.copies slot.supplier = t.mult := Arena.copies_eq ht
  have hpos (hsome : capacity.isZero = false) : 0 < a.output slot.supplier slot.product :=
    Arena.output_pos ha.steady ht hcompares.makes (Rate.isZero_of_times hcompares.makesAll hsome)
  have hable (hshort : capacity.isShortOf optimal ε = .ok false) :
      a.Able θ slot.supplier slot.product (s.demand slot.product * s.mult) := by
    have henough := Rate.le_of_not_short hε hordinary hticks hnoticed hshort
    rwa [hdemand, hflow, ← hcopies] at henough
  cases hweighs with
  | unsupplied hzero =>
    refine fun hpos => absurd (Rate.flow_of_isZero hzero) (ne_of_gt ?_)
    rw [hflow]
    exact mul_pos hpos (one_pos.trans_le htbuilt.steady.one_le_mult)
  | copies hsome hshort hneeded hraised =>
    obtain ⟨hless, henough⟩ := Rate.le_of_raised hε hordinary hticks hneeded hraised htbuilt.copies
      (hpos hsome) hflow
    exact ⟨hcopies ▸ hless, hdemand ▸ henough⟩
  | unmade hsome hshort hrate =>
    rw [Arena.rateOf_eq_formula ha.bindsEarlier] at hrate
    exact absurd (Arena.output_eq_zero_of_none ha.steady hrate) (hpos hsome).ne'
  | served hsome hshort hrate hserved =>
    have henough := Rate.le_of_not_short hε (Arena.rateOf_ordinary ha hrate) hticks hnoticed hserved
    rw [hdemand] at henough
    exact fun _ => ⟨hable hshort, fun hless => absurd (Arena.delivers_of_rateOf ha hrate henough) hless⟩
  | starved hsome hshort hrate hstarved => exact hable hshort

/-- A slot is served, or waits for a raise that will serve it, once it has been looked at. -/
theorem yields_slot {balance : Nat → Action Balancing Unit} {slot : Slot} {done : List Slot}
    (hε : Rate.Tolerance ε η θ) (hc : c.Built) (hs : c.stream? i = some s) (hslot : slot ∈ s.inputs)
    (hperiod : ∀ t, c.stream? slot.supplier = some t → t.period ≤ limit) (hsome : s.Notices ε)
    (hbalance : ∀ b, c.Raised b.arena → Balances θ slot.supplier (balance slot.supplier) b)
    (pending : Pending) :
    Action.Yields (Looked θ c i s done pending) (Balancing.slot balance ε i pending slot)
      fun pending' => Looked θ c i s (slot :: done) pending' := by
  refine Action.Triple.fix fun b hb => ?_
  have hbuilt := hb.since.raised.built hc
  have hsb : b.arena.stream? i = some s := (hb.since.unchanged i (Nat.le_refl i)).trans hs
  have hsupplies : c.Supplies slot.supplier i := ⟨s, hs, slot, hslot, rfl⟩
  have hlimit (t : Stream) (ht : b.arena.stream? slot.supplier = some t) : t.period ≤ limit := by
    obtain ⟨t₀, ht₀, hraised⟩ := hb.since.raised.exists_stream ht
    exact hraised.period ▸ hperiod t₀ ht₀
  rw [slot_eq]
  refine bind_query_yields fun ask hask => ?_
  have hsettles := settles_of_ask hε hbuilt hsb hslot hlimit hsome hask
  have hserved (h : b.arena.Serves θ slot.supplier slot.product (s.demand slot.product * s.mult)) :
      Action.Yields (· = b) (pure pending : Action Balancing Pending)
        fun pending' => Looked θ c i s (slot :: done) pending' :=
    Action.Triple.pure fun b' hb' => hb' ▸ hb.served h
  cases ask with
  | nothing => exact hserved hsettles
  | unsupplied => exact Action.Triple.bind_report (fun _ _ => trivial) (hserved hsettles)
  | copies n =>
    obtain ⟨hless, henough⟩ := hsettles
    exact Action.Triple.pure fun b' hb' => hb' ▸ hb.raise hc hsupplies hless henough
  | balance =>
    refine Action.Yields.bind (hbalance b hb.since.raised) fun _ => ?_
    refine Action.Triple.pure fun b' ⟨hsince, hbalanced⟩ => ?_
    have hu := Nat.le_of_lt (hc.bindsEarlier.lt hsupplies)
    exact (hb.step hc (hsince.mono hu)).served fun _ => ⟨hsettles.mono hsince.raised hbuilt, fun _ => hbalanced⟩

/-- All slots are served, or wait for raises that will serve them, once they have been looked at. -/
theorem yields_slots {balance : Nat → Action Balancing Unit} {b : Balancing} (hε : Rate.Tolerance ε η θ)
    (hb : b.arena.Built) (hs : b.arena.stream? i = some s)
    (hperiod : ∀ u t, b.arena.Supplies u i → b.arena.stream? u = some t → t.period ≤ limit) (hsome : s.Notices ε)
    (hbalance : ∀ u, b.arena.Supplies u i → ∀ d, b.arena.Raised d.arena → Balances θ u (balance u) d) :
    Action.Yields (· = b) (s.inputs.foldlM (Balancing.slot balance ε i) ∅)
      fun pending d => Looked θ b.arena i s s.inputs.reverse pending d := by
  have hslots : Action.Yields (fun d => Looked θ b.arena i s [] ∅ d)
      (s.inputs.foldlM (Balancing.slot balance ε i) ∅)
      fun pending d => Looked θ b.arena i s (s.inputs.reverse ++ []) pending d := by
    refine Action.Triple.foldlM_done (I := fun done pending d => Looked θ b.arena i s done pending d)
      (fun done pending slot hslot => ?_) [] ∅
    have hsupplies : b.arena.Supplies slot.supplier i := ⟨s, hs, slot, hslot, rfl⟩
    exact yields_slot hε hb hs hslot (fun t ht => hperiod _ t hsupplies ht) hsome (hbalance _ hsupplies) pending
  rw [List.append_nil] at hslots
  refine Action.Yields.weaken hslots ?_ fun _ _ h => h
  rintro d rfl
  exact ⟨.refl _ i, (fun _ _ h => by cases h), fun _ h => absurd h List.not_mem_nil⟩

/-! ## The raises -/

/-- All slots have been looked at since `c`, and some raises have been made or found overtaken. -/
structure Made (θ : ℚ) (c : Arena) (i : Nat) (s : Stream) (pending : Pending) (done : List (Nat × Int))
    (b : Balancing) : Prop where
  looked : Looked θ c i s s.inputs.reverse pending b
  made : ∀ raise ∈ done, raise.2 ≤ b.arena.copies raise.1 ∧ b.arena.Balanced θ raise.1

/-- Scaling a stream is a raise, unless the stream has as many copies already. -/
theorem yields_scale (u : Nat) (n : Int) (b : Balancing) :
    Action.Yields (· = b) (scale u n) fun made b' =>
      made = false ∧ b' = b ∧ n ≤ b.arena.copies u ∨
      made = true ∧ ∃ s s', b.arena.stream? u = some s ∧ s.Raised s' ∧ s'.mult = n ∧
        b'.arena = b.arena.modify u fun _ => s' := by
  unfold scale
  refine Action.Yields.bind_current fun b' hb' => ?_
  subst b'
  refine Action.Yields.bind_lift fun s hs => ?_
  have hstream := Arena.stream_eq_ok hs
  refine Action.Triple.ite (fun hle => Action.Triple.pure fun b' hb' => ?_) fun hlt => ?_
  · exact .inl ⟨rfl, hb', (Arena.copies_eq hstream).symm ▸ hle⟩
  refine Action.Yields.bind_lift fun s' hscale => ?_
  have hscaled := Stream.scale_eq_ok hscale
  have hraised : s.Raised s' := by
    rw [hscaled]
    exact ⟨rfl, rfl, Int.le_of_lt (Int.not_le.1 hlt)⟩
  have hmult : s'.mult = n := by rw [hscaled]
  refine Action.Yields.bind (R := fun _ b' => b'.arena = b.arena.modify u fun _ => s')
    (Action.Triple.assign fun _ _ => rfl) fun _ => ?_
  refine Action.Triple.bind_report (fun _ _ => trivial) (Action.Triple.pure fun b' hb' => ?_)
  exact .inr ⟨rfl, s, s', hstream, hraised, hmult, hb'⟩

/-- After a raise its supplier has the copies that the raise is for, and is balanced. -/
theorem yields_raise {balance : Nat → Action Balancing Unit} {pending : Pending} {done : List (Nat × Int)}
    {n : Int} (hc : c.Built) (hn : pending.get? u = some n)
    (hbalance : c.Supplies u i → ∀ b, c.Raised b.arena → Balances θ u (balance u) b) :
    Action.Yields (Made θ c i s pending done)
      (do if (← scale u n) then balance u)
      fun _ => Made θ c i s pending ((u, n) :: done) := by
  refine Action.Triple.fix fun b hb => ?_
  obtain ⟨hsupplies, hmore⟩ := hb.looked.above u n hn
  have hu := hc.bindsEarlier.lt hsupplies
  refine Action.Yields.bind (yields_scale u n b) fun made => Action.Triple.fix fun b' hb' => ?_
  rcases hb' with ⟨rfl, rfl, hle⟩ | ⟨rfl, t, t', ht, hraised, hmult, harena⟩
  · -- The raise has been overtaken, so the supplier was raised before and is balanced.
    refine Action.Triple.pure fun b' hb' => ?_
    subst b'
    have hbalanced := hb.looked.since.balanced u (Int.lt_of_lt_of_le hmore hle)
    exact ⟨hb.looked, List.forall_mem_cons.2 ⟨⟨hle, hbalanced⟩, hb.made⟩⟩
  · have hfirst : b.arena.Raised b'.arena := harena ▸ .replace ht hraised
    refine (hbalance hsupplies b' (hb.looked.since.raised.trans hfirst)).weaken (fun _ h => h) fun _ d ⟨hsince, hd⟩ => ?_
    have hboth : b.arena.Since θ i d.arena := .raise hu ht hraised (harena ▸ hsince) hd
    have hcopies : d.arena.copies u = n := by
      have hstream : b'.arena.stream? u = some t' := by
        rw [harena, Arena.stream?_modify, if_pos rfl, ht]
        rfl
      rw [Arena.copies_congr (hsince.unchanged u (Nat.le_refl u)), Arena.copies_eq hstream, hmult]
    have hbuilt := hb.looked.since.raised.built hc
    refine ⟨hb.looked.step hc hboth, List.forall_mem_cons.2 ⟨⟨hcopies.ge, hd⟩, fun raise hraise => ?_⟩⟩
    obtain ⟨hle, hbalanced⟩ := hb.made raise hraise
    exact ⟨hle.trans (hboth.raised.copies_le _), hbalanced.mono hboth.toRebalanced hbuilt⟩

/-- Once all slots have been looked at and all raises made, every slot is served. -/
theorem Made.balanced {b : Balancing} {pending : Pending} (hs : c.stream? i = some s)
    (h : Made θ c i s pending pending.entries.reverse b) : b.arena.Balanced θ i := by
  have hsb : b.arena.stream? i = some s := (h.looked.since.unchanged i (Nat.le_refl i)).trans hs
  refine Arena.balanced_of_serves hsb fun slot hslot => ?_
  rcases h.looked.settled slot (List.mem_reverse.2 hslot) with hserves | ⟨n, hn, henough⟩
  · exact hserves
  · obtain ⟨hle, hbalanced⟩ := h.made (slot.supplier, n) (List.mem_reverse.2 (Table.get?_eq_some_iff.1 hn))
    refine fun hpos => ⟨henough.trans (mul_le_mul_of_nonneg_right ?_ (slack_pow_pos 8).le), fun _ => hbalanced⟩
    exact mul_le_mul_of_nonneg_left (Int.cast_le.2 hle) hpos.le

/-- Once all raises have been made, the stream is balanced. -/
theorem yields_raises {balance : Nat → Action Balancing Unit} {pending : Pending} (hc : c.Built)
    (hs : c.stream? i = some s)
    (hbalance : ∀ u, c.Supplies u i → ∀ b, c.Raised b.arena → Balances θ u (balance u) b) :
    Action.Yields (Looked θ c i s s.inputs.reverse pending)
      (pending.entries.forM fun (u, mult) => do if (← scale u mult) then balance u)
      fun _ d => c.Since θ i d.arena ∧ d.arena.Balanced θ i := by
  refine Action.Yields.weaken (Action.Triple.forM_done
    (I := fun done => Made θ c i s pending done) (fun done raise hraise => ?_) []) ?_ fun _ d hmade => ?_
  · exact yields_raise hc (Table.get?_eq_some_iff.2 hraise) (hbalance raise.1)
  · exact fun d hd => ⟨hd, fun _ h => absurd h List.not_mem_nil⟩
  · rw [List.append_nil] at hmade
    exact ⟨hmade.looked.since, hmade.balanced hs⟩

/-! ## The walk as a whole -/

/-- Balancing a stream leaves it balanced. The induction is on its index: suppliers come earlier. -/
theorem balance_balances {a₀ : Arena} (ha : a₀.Built) (hε : Rate.Tolerance ε η θ) {n : Nat} (hn : n = a₀.size)
    {target : Nat} (hperiod : ∀ j t, a₀.Upstream j target → a₀.stream? j = some t → t.period ≤ limit)
    (hnotices : ∀ a j s e, a₀.Raised a → Relation.ReflTransGen a₀.Supplies j target →
      a.stream? j = some s → a.efficiency j = .ok e → s.Notices ε)
    (path : List Nat) (hi : Relation.ReflTransGen a₀.Supplies i target) (b : Balancing)
    (hb : a₀.Raised b.arena) : Balances θ i (balance ε n path i) b := by
  induction i using Nat.strong_induction_on generalizing path b with
  | _ i ih =>
  have hbuilt := hb.built ha
  unfold Balances
  rw [balance]
  split
  · exact Action.Triple.lift (fun _ h => by cases h) fun _ _ _ _ => trivial
  refine bind_query_yields fun e he => ?_
  refine Action.Triple.ite (fun hle => Action.Triple.pure fun b' hb' => ?_) fun _ => ?_
  · subst b'
    exact ⟨.refl _ i, Arena.balanced_of_efficiency hbuilt hε he hle⟩
  split
  swap
  next hlt =>
    rw [Arena.efficiency_eq_formula hbuilt.bindsEarlier] at he
    obtain ⟨s, hs⟩ := Arena.formula_eq_ok he
    rw [hn, ← hb.size] at hlt
    exact absurd (List.getElem?_eq_some_iff.1 hs).1 hlt
  refine bind_query_yields fun s hs => ?_
  have hs := Arena.stream_eq_ok hs
  have hsuppliers : ∀ u, b.arena.Supplies u i → u < i ∧ Relation.TransGen a₀.Supplies u target :=
    fun u hu => ⟨hbuilt.bindsEarlier.lt hu, .head' (hb.supplies_iff.1 hu) hi⟩
  have hdeeper : ∀ u, b.arena.Supplies u i → ∀ d, b.arena.Raised d.arena →
      Balances θ u (balance ε n (i :: path) u) d := fun u hu d hd =>
    ih u (hsuppliers u hu).1 (i :: path) (hsuppliers u hu).2.to_reflTransGen d (hb.trans hd)
  have hlimit : ∀ u t, b.arena.Supplies u i → b.arena.stream? u = some t → t.period ≤ limit := fun u t hu ht => by
    obtain ⟨t₀, ht₀, hraised⟩ := hb.exists_stream ht
    exact hraised.period ▸ hperiod u t₀ (hsuppliers u hu).2 ht₀
  have hnoticed := hnotices b.arena i s e hb hi hs he
  refine Action.Yields.bind (yields_slots hε hbuilt hs hlimit hnoticed hdeeper) fun pending => ?_
  exact yields_raises hbuilt hs hdeeper

end Balancing

end Conveyor
