-- SUMMARY: Mass balance: over one tick call the stock of every product changes by what the completed cycles make and use up.
import Conveyor.Proofs.Clock
import Conveyor.Proofs.Graph.Postorder
import Conveyor.Proofs.Simulation
import Conveyor.Proofs.Stock
import Mathlib.Algebra.BigOperators.Group.Finset.Basic

/-!
# Mass balance

A stream that is advanced completes some number of cycles, at most one per boundary that it crosses.
Every cycle changes the stock by the net amounts of the stream, and nothing else changes it. Each
stream is advanced once, so over a call the changes add up, stream by stream, to amounts that the
arena before the call determines: recipes and multipliers stay as they are.
-/

namespace Conveyor

/-- Cycle boundaries that the stream crosses in so many ticks. -/
def Stream.boundaries (s : Stream) (ticks : Int) : Except Fault Int := do
  let period ← s.recipe.period
  let (boundaries, _) ← Clock.advance (s.next.getD period) period ticks
  return boundaries

namespace Arena

variable {m : Int}

/-! ## Cycles of one stream -/

/-- `b` is `a` after `k` cycles of stream `i`, wherever the stock was moved. -/
structure Progress (a : Arena) (i k : Nat) (b : Arena) : Prop where
  kept : Kept [] a b
  stock : ∀ p, b.stock p = a.stock p + k * a.net i p

namespace Progress

variable {a b : Arena} {i k : Nat}

theorem zero (a : Arena) (i : Nat) : Progress a i 0 a :=
  ⟨Kept.refl [] a, fun p => by simp⟩

theorem openInput (h : Progress a i k b) (j : Nat) (p : Product) :
    Progress a i k (b.openInput j p m) :=
  ⟨h.kept.trans (Kept.openInput b j p m), fun q => by rw [stock_openInput, h.stock]⟩

theorem transfer (h : Progress a i k b) (j u : Nat) (p : Product) :
    Progress a i k (b.transfer j u p) :=
  ⟨h.kept.trans (Kept.transfer b j u p), fun q => by rw [stock_transfer, h.stock]⟩

/-- A cycle more. What it adds is the same as it was at the start. -/
theorem produce? (h : Progress a i k b) {s s' : Stream} (hs : b.stream? i = some s)
    (hproduce : s.produce? = some s') : Progress a i (k + 1) (b.modify i fun _ => s') where
  kept := h.kept.trans (Kept.produce hs hproduce)
  stock p := by
    rw [stock_modify hs, Stream.stock_of_produce? hproduce, h.stock, ← net_eq hs, h.kept.net]
    push_cast
    ring

end Progress

/-- An attempt completes a cycle or none. -/
theorem yields_attempt (a : Arena) (i k : Nat) :
    Action.Yields (Progress a i k) (attempt m i) fun done b =>
      Progress a i (if done then k + 1 else k) b := by
  unfold attempt
  apply Action.Yields.bind
  · exact (keeps_pull (fun _ hb => hb.openInput i) fun _ hb => hb.transfer i).yields
  intro _
  apply Action.Yields.bind_current
  intro b hb
  apply Action.Yields.bind_lift
  intro s hs
  cases hproduce : s.produce? with
  | none => exact Action.Triple.pure fun _ hc => hc ▸ hb
  | some s' =>
    refine Action.Yields.bind (Action.Triple.assign fun _ _ => ?_)
      fun _ => Action.Triple.pure fun _ hc => hc
    exact hb.produce? (stream_eq_ok hs) hproduce

theorem yields_runCycles (a : Arena) (i n k : Nat) :
    Action.Yields (Progress a i k) (runCycles m i n k) fun completed b =>
      completed ≤ k + n ∧ Progress a i completed b := by
  induction n generalizing k with
  | zero => exact Action.Triple.pure fun _ hb => ⟨Nat.le_refl k, hb⟩
  | succ n ih =>
    unfold runCycles
    apply Action.Yields.bind (yields_attempt a i k)
    intro done
    cases done with
    | true =>
      exact (ih (k + 1)).weaken (fun _ hb => hb) fun completed b hb => ⟨by omega, hb.2⟩
    | false => exact Action.Triple.pure fun _ hb => ⟨by omega, hb⟩

/-! ## One stream -/

/-- Stream `i` of `a` completes `k` cycles, no more than it crosses boundaries, and reports what
they make. -/
structure Completes (a : Arena) (ticks : Int) (i k : Nat) (report : StreamTick) : Prop where
  index : report.index = i
  stream : ∃ s, a.stream? i = some s ∧
    (∃ crossed, s.boundaries ticks = .ok crossed ∧ k ≤ crossed) ∧
    report.produced.keys = s.recipe.outputTotals.keys ∧
    ∀ p ∈ report.produced.keys, report.produced.get? p = some (k * s.mult * s.recipe.yieldOf p)

variable {ticks : Int}

theorem Stream.boundaries_eq_ok {s : Stream} {period crossed next : Int}
    (hperiod : s.recipe.period = .ok period)
    (hclock : Clock.advance (s.next.getD period) period ticks = .ok (crossed, next)) :
    s.boundaries ticks = .ok crossed ∧ 0 ≤ crossed := by
  constructor
  · rw [Stream.boundaries, hperiod]
    change (Clock.advance (s.next.getD period) period ticks >>= fun x => pure x.1) = .ok crossed
    rw [hclock]
    rfl
  · exact Clock.advance_nonneg (Recipe.period_nonneg hperiod) hclock

theorem yields_advance (a : Arena) (i : Nat) :
    Action.Yields (· = a) (advance i ticks m) fun report b =>
      ∃ k, Completes a ticks i k report ∧ Kept [i] a b ∧
        ∀ p, b.stock p = a.stock p + k * a.net i p := by
  unfold advance
  apply Action.Yields.bind_current
  intro b hb
  subst b
  apply Action.Yields.bind_lift
  intro s hs
  apply Action.Yields.bind_lift
  intro period hperiod
  apply Action.Yields.bind_lift
  intro ⟨crossed, next⟩ hclock
  have hs := stream_eq_ok hs
  obtain ⟨hboundaries, hcrossed⟩ := Stream.boundaries_eq_ok hperiod hclock
  have hkept : Kept [i] a (a.modify i ({ · with next := some next })) :=
    Kept.modify fun s _ => ⟨Stream.setNext_same s _, fun hi => absurd (List.mem_singleton_self i) hi⟩
  have hstock (p : Product) : (a.modify i ({ · with next := some next })).stock p = a.stock p :=
    stock_modify_of_eq fun _ => rfl
  apply Action.Yields.bind (R := fun _ b => Progress (a.modify i ({ · with next := some next })) i 0 b)
  · exact Action.Triple.assign fun _ _ => Progress.zero _ i
  intro _
  apply Action.Yields.bind (yields_runCycles _ i _ 0)
  intro k
  apply Action.Yields.bind (keeps_reportProduced i _).yields
  intro _
  refine Action.Triple.pure fun b ⟨hk, hprogress⟩ => ⟨k, ⟨rfl, s, hs, ?_, ?_, ?_⟩, ?_, ?_⟩
  · refine ⟨crossed, hboundaries, ?_⟩
    split at hk <;> omega
  · exact Table.keys_mapValues _ _
  · intro p hp
    rw [Table.keys_mapValues] at hp
    obtain ⟨n, hn⟩ := Table.mem_keys_iff.1 hp
    rw [Table.get?_mapValues, hn, Recipe.yieldOf_eq_of_get? hn]
    exact congrArg some (by ring)
  · exact hkept.trans hprogress.kept
  · exact fun p => by rw [hprogress.stock, hstock, hkept.net]

/-! ## One stream after another -/

/-- A stream that was not advanced before counts the same from the start. -/
theorem Completes.of_kept {a b : Arena} {is : List Nat} (hkept : Kept is a b) {i k : Nat}
    {report : StreamTick} (hi : i ∉ is) (h : Completes b ticks i k report) :
    Completes a ticks i k report := by
  obtain ⟨hindex, t, ht, ⟨crossed, hcrossed, hk⟩, hkeys, hproduced⟩ := h
  obtain ⟨s, hs, hsame, hnext⟩ := hkept.stream_of_after ht
  rw [hsame.recipe] at hkeys
  rw [hsame.recipe, hsame.mult] at hproduced
  rw [Stream.boundaries, hsame.recipe, hnext hi] at hcrossed
  exact ⟨hindex, s, hs, ⟨crossed, hcrossed, hk⟩, hkeys, hproduced⟩

/-- Streams that are advanced once each complete some cycles each, as the arena before has it. -/
theorem yields_mapM_advance {is : List Nat} (his : is.Nodup) (a : Arena) :
    Action.Yields (· = a) (is.mapM fun i => advance i ticks m) fun reports b =>
      ∃ k : Nat → Nat, List.Forall₂ (fun i report => Completes a ticks i (k i) report) is reports ∧
        Kept is a b ∧ ∀ p, b.stock p = a.stock p + (is.map fun i => k i * a.net i p).sum := by
  induction is generalizing a with
  | nil =>
    refine Action.Triple.pure fun b hb => ⟨fun _ => 0, List.Forall₂.nil, ?_, ?_⟩
    · exact hb ▸ Kept.refl [] a
    · exact fun p => by simp [hb]
  | cons i is ih =>
    obtain ⟨hi, his⟩ := List.nodup_cons.1 his
    rw [List.mapM_cons]
    apply Action.Yields.bind (yields_advance a i)
    intro report
    refine Action.Triple.fix fun b ⟨k₀, hreport, hkept, hstock⟩ => ?_
    apply Action.Yields.bind (ih his b)
    intro reports
    refine Action.Triple.pure fun c ⟨k, hreports, hkept', hstock'⟩ => ?_
    have hne {j : Nat} (hj : j ∈ is) : j ≠ i := fun h => hi (h ▸ hj)
    refine ⟨Function.update k i k₀, List.Forall₂.cons ?_ ?_, hkept.trans hkept', ?_⟩
    · rwa [Function.update_self]
    · refine ((List.forall₂_and_left _ _).2 ⟨fun j hj => hne hj, hreports⟩).imp ?_
      rintro j r ⟨hj, hr⟩
      rw [Function.update_of_ne hj]
      exact hr.of_kept hkept (by simpa using hj)
    · intro p
      have hrest : (is.map fun j => Function.update k i k₀ j * a.net j p)
          = is.map fun j => k j * b.net j p := by
        refine List.map_congr_left fun j hj => ?_
        rw [Function.update_of_ne (hne hj), hkept.net]
      rw [hstock', hstock, List.map_cons, List.sum_cons, Function.update_self, hrest]
      omega

/-! ## A whole call -/

/-- An order in which streams are visited names each of them once. -/
theorem visitOrder_perm {a : Arena} {order : TickOrder} {is : List Nat}
    (h : a.visitOrder order = .ok is) : is.Perm (List.range a.size) := by
  have hsearch (hcheck : a.checkAcyclic a.supplyGraph.postorder = .ok ()) :
      a.supplyGraph.postorder.Perm (List.range a.size) := by
    refine Digraph.postorder_perm fun v hv => Nat.lt_of_not_le fun hle => ?_
    have hfault := Result.forM_eq_ok.1 hcheck v (Digraph.mem_lastOfCircle hle hv)
    rw [if_pos (show a.size ≤ v from hle)] at hfault
    cases hfault
  cases order with
  | registration =>
    obtain rfl := Result.pure_eq_ok.1 h
    exact List.Perm.refl _
  | suppliersFirst =>
    obtain ⟨_, hcheck, h⟩ := Result.bind_eq_ok.1 h
    obtain rfl := Result.pure_eq_ok.1 h
    exact hsearch hcheck
  | consumersFirst =>
    obtain ⟨_, hcheck, h⟩ := Result.bind_eq_ok.1 h
    obtain rfl := Result.pure_eq_ok.1 h
    exact (List.reverse_perm _).trans (hsearch hcheck)

/-- In a call every stream completes some cycles, one stream after another. -/
theorem yields_tick_each (order : TickOrder) (a : Arena) :
    Action.Yields (· = a) (tick ticks order m) fun reports b =>
      ∃ is, is.Perm (List.range a.size) ∧ ∃ k : Nat → Nat,
        List.Forall₂ (fun i report => Completes a ticks i (k i) report) is reports ∧
        Kept is a b ∧ ∀ p, b.stock p = a.stock p + (is.map fun i => k i * a.net i p).sum := by
  unfold tick
  apply Action.Yields.bind_current
  intro b hb
  subst b
  apply Action.Yields.bind_lift
  intro is his
  have hperm := visitOrder_perm his
  exact (yields_mapM_advance (hperm.nodup_iff.2 List.nodup_range) a).weaken
    (fun _ hb => hb) fun _ _ hb => ⟨is, hperm, hb⟩

/-- Pulling moves units, and changes no stock. -/
theorem stock_of_pull {c d : Logged Arena} (h : pull m i c = .ok () d) (p : Product) :
    d.state.stock p = c.state.stock p := by
  have hkeeps : Action.Keeps (fun b : Arena => b.stock p = c.state.stock p) (pull m i) :=
    keeps_pull (fun b hb q => (stock_openInput b i q p m).trans hb)
      fun b hb u q => (stock_transfer b i u q p).trans hb
  exact hkeeps.yields.of_eq_ok rfl h

/-- Each stream completes some number of cycles, at most one per boundary that it crosses. It reports
what they make, and the stock of every product changes by what they make less what they use up.
Pulling changes no stock, and nothing else about the streams changes but countdowns and new
buffers. -/
theorem tick_balance {order : TickOrder} {s t : Logged Arena} {reports : List StreamTick}
    (h : tick ticks order m s = .ok reports t) :
    (∃ k : Nat → Nat,
      (reports.map StreamTick.index).Perm (List.range s.state.size) ∧
      (∀ report ∈ reports, Completes s.state ticks report.index (k report.index) report) ∧
      ∀ p, t.state.stock p
        = s.state.stock p + ∑ i ∈ Finset.range s.state.size, k i * s.state.net i p) ∧
    (∀ i (c d : Logged Arena), pull m i c = .ok () d → ∀ p, d.state.stock p = c.state.stock p) ∧
    t.state.size = s.state.size ∧
    ∀ i u, s.state.stream? i = some u → ∃ v, t.state.stream? i = some v ∧ u.Same v := by
  obtain ⟨is, hperm, k, hreports, hkept, hstock⟩ := (yields_tick_each order s.state).of_eq_ok rfl h
  have hindices : is = reports.map StreamTick.index := by
    rw [← List.forall₂_eq_eq_eq, List.forall₂_map_right_iff]
    exact hreports.imp fun _ _ hreport => hreport.index.symm
  refine ⟨⟨k, ?_, ?_, ?_⟩, fun i c d hpull p => stock_of_pull hpull p, hkept.size, ?_⟩
  · exact hindices ▸ hperm
  · intro report hmem
    obtain ⟨i, _, hreport⟩ := Result.exists_of_forall₂ hreports hmem
    rwa [hreport.index]
  · intro p
    rw [hstock, (hperm.map _).sum_eq]
    rfl
  · intro i u hu
    obtain ⟨v, hv, hsame, _⟩ := hkept.stream i u hu
    exact ⟨v, hv, hsame⟩

/-- Of ten ore that are mined in five ticks, four are smelted and six are left. -/
theorem tick_balance_mining :
    ∃ reports t, tick 5 .registration 8 { state := mining 0 2 } = .ok reports t ∧
      t.state.stock ⟨0, 0⟩ = 6 ∧
      ∃ k : Nat → Nat, ∀ p, t.state.stock p
        = (mining 0 2).stock p + ∑ i ∈ Finset.range (mining 0 2).size, k i * (mining 0 2).net i p := by
  have hrun : (match tick 5 .registration 8 { state := mining 0 2 } with
      | .ok _ t => decide (t.state.stock ⟨0, 0⟩ = 6)
      | .error _ _ => false) = true := by
    decide +kernel
  cases h : tick 5 .registration 8 { state := mining 0 2 } with
  | error f t => rw [h] at hrun; cases hrun
  | ok reports t =>
    rw [h] at hrun
    obtain ⟨⟨k, _, _, hstock⟩, _⟩ := tick_balance h
    exact ⟨reports, t, rfl, of_decide_eq_true hrun, k, hstock⟩

end Arena

end Conveyor
