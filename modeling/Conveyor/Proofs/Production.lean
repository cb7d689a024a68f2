-- SUMMARY: A conversion cycle happens as a whole or not at all, and no buffer that it books on or reports is missing.
import Conveyor.Proofs.Bounds
import Conveyor.Proofs.Recipe
import Conveyor.Proofs.Stock

/-!
# Whole cycles

Production first checks every product and then books on every buffer. Booking on a product without a buffer
would be a fault, half-way through a cycle. With every such look-up in view (`Stream.tryProduce`), the
checks are seen to rule that out, for any recipe: what is booked is what was checked, total by total, and
booking opens or drops no buffer. So a stream that has completed a cycle has a buffer for all that it yields,
and whoever looks there for what it has made finds it.
-/

namespace Conveyor

namespace Stream

variable {s t : Stream} {stock : Stock} {totals : Table Product Int} {sign mult : Int} {p : Product}

/-! ## Booking with every look-up in view -/

/-- The stock with so many units more of a product. Without a buffer for it this is a fault. -/
def addUnits (stock : Stock) (p : Product) (units : Int) : Except Fault Stock :=
  match stock.get? p with
  | some b => .ok (stock.insert p (b.gain units))
  | none => .error .noSuchKey

/-- The stock after `sign` times the amounts of `totals`, for all copies, one look-up per product. -/
def settleEach (sign mult : Int) (totals : Table Product Int) (stock : Stock) : Except Fault Stock :=
  totals.entries.foldlM (fun bs (p, amount) => addUnits bs p (sign * (amount * mult))) stock

/-- One conversion cycle of all copies, if stock and room allow it: whether it ran, and what it left. -/
def tryProduce (s : Stream) : Except Fault (Bool × Stream) :=
  if s.canProduce then do
    let left ← settleEach (-1) s.mult s.recipe.inputTotals s.buffers
    let made ← settleEach 1 s.mult s.recipe.outputTotals left
    return (true, { s with buffers := made })
  else return (false, s)

theorem addUnits_of_mem (hp : p ∈ stock.keys) (units : Int) :
    addUnits stock p units = .ok (stock.modify p (·.gain units)) := by
  obtain ⟨b, hb⟩ := Table.mem_keys_iff.1 hp
  simp only [addUnits, Table.modify, hb]

/-- Booking opens and drops no buffer. -/
theorem keys_settle (sign mult : Int) (totals : Table Product Int) (stock : Stock) :
    Table.keys (settle sign mult totals stock) = stock.keys :=
  List.foldlRecOn (motive := fun bs : Stock => bs.keys = stock.keys) totals.entries _ rfl
    fun _ hb _ _ => (Table.keys_modify _ _ _).trans hb

/-- Where every product has a buffer, no booking fails. -/
theorem settleEach_eq_ok (h : ∀ p ∈ totals.keys, p ∈ stock.keys) :
    settleEach sign mult totals stock = .ok (settle sign mult totals stock) := by
  have hentries : ∀ e ∈ totals.entries, e.1 ∈ stock.keys := fun e he => h e.1 (List.mem_map_of_mem he)
  unfold settleEach settle
  clear h
  generalize totals.entries = entries at hentries
  induction entries generalizing stock with
  | nil => rfl
  | cons e entries ih =>
    obtain ⟨q, amount⟩ := e
    obtain ⟨hq, hrest⟩ := List.forall_mem_cons.1 hentries
    have hkeys := Table.keys_modify stock q (·.gain (sign * (amount * mult)))
    rw [List.foldlM_cons]
    dsimp only
    rw [addUnits_of_mem hq]
    have hrest : ∀ e ∈ entries, e.1 ∈ (stock.modify q (·.gain (sign * (amount * mult)))).keys := hkeys ▸ hrest
    exact ih hrest

/-- What has passed the checks has a buffer. -/
theorem mem_keys_of_canProduce (h : s.canProduce = true) :
    (∀ p ∈ s.recipe.inputTotals.keys, p ∈ s.buffers.keys) ∧
      ∀ p ∈ s.recipe.outputTotals.keys, p ∈ s.buffers.keys := by
  obtain ⟨hinputs, houtputs⟩ := canProduce_iff.1 h
  constructor
  · intro p hp
    obtain ⟨n, hn⟩ := Table.mem_keys_iff.1 hp
    obtain ⟨b, hb, _⟩ := hinputs p n hn
    exact Table.mem_keys_iff.2 ⟨b, hb⟩
  · intro p hp
    obtain ⟨n, hn⟩ := Table.mem_keys_iff.1 hp
    obtain ⟨b, hb, _⟩ := houtputs p n hn
    exact Table.mem_keys_iff.2 ⟨b, hb⟩

/-- Production never meets a missing buffer, whatever the stream is. -/
theorem tryProduce_eq_ok (s : Stream) :
    s.tryProduce = .ok (s.produce?.isSome, s.produce?.getD s) := by
  unfold tryProduce produce?
  cases hcan : s.canProduce with
  | false => rfl
  | true =>
    obtain ⟨hinputs, houtputs⟩ := mem_keys_of_canProduce hcan
    let left := settle (-1) s.mult s.recipe.inputTotals s.buffers
    have htaken : settleEach (-1) s.mult s.recipe.inputTotals s.buffers = .ok left := settleEach_eq_ok hinputs
    have hmade : settleEach 1 s.mult s.recipe.outputTotals left = .ok (settle 1 s.mult s.recipe.outputTotals left) :=
      settleEach_eq_ok fun p hp => (keys_settle _ _ _ _).symm ▸ houtputs p hp
    rw [if_pos rfl, if_pos rfl, htaken]
    change (settleEach 1 s.mult s.recipe.outputTotals _ >>= _) = _
    rw [hmade]
    rfl

/-- A whole cycle opens and drops no buffer. -/
theorem keys_of_produce? (h : s.produce? = some t) : t.buffers.keys = s.buffers.keys := by
  unfold produce? at h
  rw [if_pos (canProduce_of_produce? h)] at h
  obtain rfl := Option.some.inj h
  exact (keys_settle _ _ _ _).trans (keys_settle _ _ _ _)

/-! ## What a cycle needs and leaves -/

/-- There is enough of every product that a cycle consumes, and room for all that it yields. -/
structure Ready (s : Stream) : Prop where
  inputs : ∀ p ∈ s.recipe.inputs.map Part.product,
    ∃ b, s.buffers.get? p = some b ∧ s.recipe.requiredOf p * s.mult ≤ b.current
  outputs : ∀ p ∈ s.recipe.outputs.map Part.product,
    ∃ b, s.buffers.get? p = some b ∧ s.recipe.yieldOf p * s.mult ≤ b.max - b.current

/-- `t` is `s` after one cycle of all copies. -/
structure Cycled (s t : Stream) : Prop where
  rest : t = { s with buffers := t.buffers }
  products : t.buffers.keys = s.buffers.keys
  stock : ∀ p, t.stock p = s.stock p + (s.recipe.yieldOf p - s.recipe.requiredOf p) * s.mult
  max : ∀ p, (t.buffers.get? p).map Buffer.max = (s.buffers.get? p).map Buffer.max
  others : ∀ p, p ∉ s.recipe.inputs.map Part.product → p ∉ s.recipe.outputs.map Part.product →
    t.buffers.get? p = s.buffers.get? p
  inBounds : ∀ p b, t.buffers.get? p = some b → b.InBounds

/-- In a stream with its buffers in bounds, room is what the stock leaves of the capacity. -/
theorem Sound.canProduce_iff_ready (hs : s.Sound) : s.canProduce = true ↔ s.Ready := by
  have hroom (p : Product) (n : Int) :
      (∃ b, s.buffers.get? p = some b ∧ n ≤ b.free) ↔
        ∃ b, s.buffers.get? p = some b ∧ n ≤ b.max - b.current :=
    exists_congr fun b => and_congr_right fun hb => by rw [(hs.inBounds p b hb).free_eq]
  rw [canProduce_iff_products]
  simp only [hroom]
  exact ⟨fun h => ⟨h.1, h.2⟩, fun h => ⟨h.inputs, h.outputs⟩⟩

theorem Sound.cycled (hs : s.Sound) (h : s.produce? = some t) : s.Cycled t where
  rest := eq_of_produce? h
  products := keys_of_produce? h
  stock p := by rw [stock_of_produce? h, net, Int.mul_comm]
  max p := by
    rw [get?_of_produce? h, Option.map_map]
    rfl
  others p hin hout := by
    rw [get?_of_produce? h, Recipe.yieldOf_eq_zero hout, Recipe.requiredOf_eq_zero fun hp =>
      hin (Recipe.mem_inputProducts.1 hp), Int.sub_zero, Int.mul_zero]
    simp only [Buffer.gain_zero, Option.map_id']
  inBounds := (hs.produce? h).inBounds

/-- A cycle runs exactly if every product that it consumes is in stock and every product that it yields has
room, each in its total for all copies. It then changes each stock by its net amount and nothing else;
otherwise it changes nothing. No look-up fails on the way. -/
theorem tryProduce_whole_or_nothing (hs : s.Sound) :
    ∃ ran t, s.tryProduce = .ok (ran, t) ∧ s.produce? = (if ran then some t else none) ∧
      (ran = true ↔ s.Ready) ∧ (ran = true → s.Cycled t) ∧ (ran = false → t = s) := by
  refine ⟨_, _, tryProduce_eq_ok s, ?_⟩
  rw [← hs.canProduce_iff_ready]
  cases h : s.produce? with
  | some t =>
    exact ⟨rfl, iff_of_true rfl (canProduce_of_produce? h), fun _ => hs.cycled h, nofun⟩
  | none =>
    refine ⟨rfl, iff_of_false nofun fun hcan => ?_, nofun, fun _ => rfl⟩
    obtain ⟨t, ht⟩ := exists_produce? hcan
    rw [h] at ht
    cases ht

/-- Two copies that take five units of the first product in two parts and give one back, and turn one of the
second into three of the third, in two parts. -/
def foundry (iron : Int) : Stream where
  recipe := Recipe.every 1 Int.one_pos [⟨⟨0, 0⟩, 2⟩, ⟨⟨1, 0⟩, 1⟩, ⟨⟨0, 0⟩, 3⟩]
    [⟨⟨2, 0⟩, 1⟩, ⟨⟨0, 0⟩, 1⟩, ⟨⟨2, 0⟩, 2⟩]
  inputs := [⟨⟨0, 0⟩, 0⟩, ⟨⟨1, 0⟩, 0⟩, ⟨⟨0, 0⟩, 0⟩]
  mult := 2
  buffers := Table.ofList [(⟨2, 0⟩, ⟨10, 16⟩), (⟨0, 0⟩, ⟨iron, 14⟩), (⟨1, 0⟩, ⟨2, 4⟩)]

/-- Ten units of the first product are enough, and its buffer has room for the two that come back. With nine
the cycle does not run, although each part alone is in stock. -/
theorem tryProduce_whole_or_nothing_foundry :
    (foundry 10).Sound ∧ (foundry 9).Sound ∧
      (∃ t, (foundry 10).tryProduce = .ok (true, t) ∧ t.stock ⟨0, 0⟩ = 2 ∧ t.stock ⟨1, 0⟩ = 0 ∧
        t.stock ⟨2, 0⟩ = 16) ∧
      (foundry 9).tryProduce = .ok (false, foundry 9) := by
  have hsound (iron : Int) (hlow : 0 ≤ iron) (hhigh : iron ≤ 14) : (foundry iron).Sound := by
    have hcopies : 1 ≤ (foundry 0).mult ∧ (foundry 0).recipe.Positive := by decide
    refine ⟨hcopies.2, hcopies.1, fun p b hb => ?_⟩
    have hbounds : ∀ b ∈ (foundry iron).buffers.values, b.InBounds := by
      have hvalues : (foundry iron).buffers.values = [⟨10, 16⟩, ⟨iron, 14⟩, ⟨2, 4⟩] := rfl
      rw [hvalues]
      simp only [List.forall_mem_cons, List.not_mem_nil, false_imp_iff, implies_true, and_true]
      exact ⟨⟨by decide, by decide⟩, ⟨hlow, hhigh⟩, ⟨by decide, by decide⟩⟩
    exact hbounds b (Table.mem_values_iff.2 ⟨p, hb⟩)
  have hten := hsound 10 (by decide) (by decide)
  have hnine := hsound 9 (by decide) (by decide)
  obtain ⟨ran, t, htry, hproduce, -, hcycled, -⟩ := tryProduce_whole_or_nothing hten
  obtain ⟨ran', t', htry', hproduce', -, -, hsame⟩ := tryProduce_whole_or_nothing hnine
  have hruns : (foundry 10).produce?.isSome = true := by decide
  have hstalls : (foundry 9).produce?.isSome = false := by decide
  cases ran with
  | false => rw [hproduce] at hruns; cases hruns
  | true =>
  cases ran' with
  | true => rw [hproduce'] at hstalls; cases hstalls
  | false =>
  obtain rfl := hsame rfl
  have hstock := (hcycled rfl).stock
  refine ⟨hten, hnine, ⟨t, htry, (hstock _).trans (by decide), (hstock _).trans (by decide),
    (hstock _).trans (by decide)⟩, htry'⟩

/-! ## Buffers of what is made -/

/-- The stream has a buffer for every product that it yields. -/
def StoresYield (s : Stream) : Prop := ∀ p ∈ s.recipe.outputTotals.keys, p ∈ s.buffers.keys

theorem StoresYield.openInput (h : s.StoresYield) (p : Product) (m : Int) : (s.openInput p m).StoresYield := by
  intro q hq
  rw [openInput_recipe] at hq
  exact mem_keys_openInput.2 (.inr (h q hq))

theorem StoresYield.gain (h : s.StoresYield) (p : Product) (n : Int) : (s.gain p n).StoresYield := by
  intro q hq
  exact (Table.keys_modify s.buffers p (·.gain n)).symm ▸ h q hq

/-- What has completed a cycle had passed the checks, and the cycle has dropped no buffer. -/
theorem storesYield_of_produce? (h : s.produce? = some t) : t.StoresYield := by
  have hchecked := (mem_keys_of_canProduce (canProduce_of_produce? h)).2
  intro p hp
  rw [eq_of_produce? h] at hp
  exact (keys_of_produce? h).symm ▸ hchecked p hp

end Stream

namespace Arena

variable {a : Arena} {i : Nat} {m : Int} {s : Stream} {p : Product}

/-- Stream `i` has a buffer for every product that it yields. -/
def StoresYield (i : Nat) (a : Arena) : Prop := ∀ s, a.stream? i = some s → s.StoresYield

namespace StoresYield

theorem modify (h : a.StoresYield i) {j : Nat} {f : Stream → Stream} (hf : ∀ s, s.StoresYield → (f s).StoresYield) :
    (a.modify j f).StoresYield i := by
  intro s hs
  rw [stream?_modify] at hs
  split at hs
  · obtain ⟨t, ht, rfl⟩ := Option.map_eq_some_iff.1 hs
    exact hf t (h t ht)
  · exact h s hs

theorem transfer (h : a.StoresYield i) (j u : Nat) (p : Product) : (a.transfer j u p).StoresYield i := by
  unfold Arena.transfer
  split
  · exact (h.modify fun s hs => hs.gain p _).modify fun s hs => hs.gain p _
  · exact h

theorem exists_buffer (h : a.StoresYield i) (hs : a.stream? i = some s) (hp : p ∈ s.recipe.outputTotals.keys) :
    ∃ b, a.buffer i p = .ok b :=
  (Table.mem_keys_iff.1 (h s hs p hp)).imp fun _ hb => buffer_eq_ok.2 ⟨s, hs, hb⟩

end StoresYield

theorem storesYield_closedUnderTime (m : Int) : ClosedUnderTime m fun a => ∀ i, a.StoresYield i :=
  forall_stream_closedUnderTime (fun _ hs p => hs.openInput p m) (fun _ hs => hs.gain)
    (fun _ _ _ => Stream.storesYield_of_produce?) fun _ hs _ => hs

/-- With the first cycle that is completed, and from then on, the stream has buffers for what it yields. -/
theorem yields_attempt_stores (i k : Nat) :
    Action.Yields (fun a => 0 < k → StoresYield i a) (attempt m i) fun done a =>
      0 < (if done then k + 1 else k) → a.StoresYield i := by
  unfold attempt
  apply Action.Yields.bind
  · exact (keeps_pull (fun a ha p hk => (ha hk).modify fun _ hs => hs.openInput p m)
      fun a ha u p hk => (ha hk).transfer i u p).yields
  intro _
  apply Action.Yields.bind_current
  intro b hb
  apply Action.Yields.bind_lift
  intro s hs
  cases hproduce : s.produce? with
  | none => exact Action.Triple.pure fun _ hc => hc ▸ hb
  | some s' =>
    refine Action.Yields.bind (Action.Triple.assign fun _ _ => ?_) fun _ => Action.Triple.pure fun _ hc => hc
    intro _ t ht
    rw [stream?_modify, if_pos rfl, stream_eq_ok hs] at ht
    obtain rfl := Option.some.inj ht
    exact Stream.storesYield_of_produce? hproduce

theorem yields_runCycles_stores (i n k : Nat) :
    Action.Yields (fun a => 0 < k → StoresYield i a) (runCycles m i n k) fun completed a =>
      0 < completed → a.StoresYield i := by
  induction n generalizing k with
  | zero => exact Action.Triple.pure fun _ hb => hb
  | succ n ih =>
    unfold runCycles
    apply Action.Yields.bind (yields_attempt_stores i k)
    intro done
    cases done with
    | true => exact ih (k + 1)
    | false => exact Action.Triple.pure fun _ hb => hb

end Arena

end Conveyor
