-- SUMMARY: What a slot asks for, apart from the balancing that it may call for.
import Conveyor.Arena.Balance
import Conveyor.Proofs.Arena

/-!
# Asking

A slot is looked at in two steps: the arena tells what the slot asks for, and then that is followed. The
first step is a computation on the arena as it is and changes nothing, so it is taken apart once, here.
Whatever is said of slots is said of the few things that they ask for.
-/

namespace Conveyor

/-- What a slot asks for. -/
inductive Ask where
  | nothing
  /-- The supplier makes nothing of the product, so more copies of it would not help. -/
  | unsupplied
  /-- The supplier has too few copies. -/
  | copies (mult : Int)
  /-- The supplier has copies enough, and delivers too little all the same. -/
  | balance

namespace Arena

/-- What a slot asks for whose supplier has `mult` copies with the given capacity. -/
def weigh (ε : Float) (slot : Slot) (mult : Int) (capacity optimal : Rate) (a : Arena) : Except Fault Ask := do
  if capacity.isZero then return .unsupplied
  if (← capacity.isShortOf optimal ε) then
    let needed ← capacity.ratio optimal
    return .copies (← raisedMultiplier mult needed ε)
  match ← a.rateOf slot.supplier slot.product with
  | none => return .nothing
  | some realized =>
    if (← realized.isShortOf optimal ε) then return .balance
    return .nothing

/-- What a slot of stream `i` asks for. -/
def ask (ε : Float) (i : Nat) (slot : Slot) (a : Arena) : Except Fault Ask := do
  let supplier ← a.stream slot.supplier
  let s ← a.stream i
  let inflow ← s.recipe.inflowOf slot.product
  let optimal ← inflow.times s.mult
  let outflow ← supplier.recipe.outflowOf slot.product
  let capacity ← outflow.times supplier.mult
  a.weigh ε slot supplier.mult capacity optimal

/-- The rates that a slot compares: what all copies of its supplier `t` could make, `outflow` each, and what
all copies of stream `s` would take, `inflow` each. -/
structure Compares (a : Arena) (i : Nat) (slot : Slot) (t s : Stream)
    (inflow optimal outflow capacity : Rate) : Prop where
  supplier : a.stream? slot.supplier = some t
  consumer : a.stream? i = some s
  takes : s.recipe.inflowOf slot.product = .ok inflow
  takesAll : inflow.times s.mult = .ok optimal
  makes : t.recipe.outflowOf slot.product = .ok outflow
  makesAll : outflow.times t.mult = .ok capacity

section

variable (ε : Float) (slot : Slot) (mult : Int) (capacity optimal : Rate) (a : Arena)

/-- Why a slot asks for what it does. -/
inductive Weighs : Ask → Prop
  | unsupplied (hzero : capacity.isZero = true) : Weighs .unsupplied
  | copies {needed : Float} {n : Int} (hsome : capacity.isZero = false)
      (hshort : capacity.isShortOf optimal ε = .ok true) (hneeded : capacity.ratio optimal = .ok needed)
      (hraised : raisedMultiplier mult needed ε = .ok n) : Weighs (.copies n)
  | unmade (hsome : capacity.isZero = false) (hshort : capacity.isShortOf optimal ε = .ok false)
      (hrate : a.rateOf slot.supplier slot.product = .ok none) : Weighs .nothing
  | served {realized : Rate} (hsome : capacity.isZero = false) (hshort : capacity.isShortOf optimal ε = .ok false)
      (hrate : a.rateOf slot.supplier slot.product = .ok (some realized))
      (hserved : realized.isShortOf optimal ε = .ok false) : Weighs .nothing
  | starved {realized : Rate} (hsome : capacity.isZero = false) (hshort : capacity.isShortOf optimal ε = .ok false)
      (hrate : a.rateOf slot.supplier slot.product = .ok (some realized))
      (hstarved : realized.isShortOf optimal ε = .ok true) : Weighs .balance

end

variable {a : Arena} {i : Nat} {slot : Slot} {s t : Stream} {inflow optimal outflow capacity : Rate}
  {ε : Float} {mult : Int} {r : Ask}

theorem weighs_of_eq_ok (h : a.weigh ε slot mult capacity optimal = .ok r) :
    a.Weighs ε slot mult capacity optimal r := by
  unfold weigh at h
  split at h
  next hzero =>
    obtain rfl := Except.ok.inj h
    exact .unsupplied hzero
  next hsome =>
  have hsome := eq_false_of_ne_true hsome
  obtain ⟨short, hshort, h⟩ := Result.bind_eq_ok.1 h
  cases short with
  | true =>
    obtain ⟨needed, hneeded, h⟩ := Result.bind_eq_ok.1 h
    obtain ⟨n, hraised, h⟩ := Result.bind_eq_ok.1 h
    obtain rfl := Except.ok.inj h
    exact .copies hsome hshort hneeded hraised
  | false =>
    obtain ⟨realized, hrate, h⟩ := Result.bind_eq_ok.1 h
    cases realized with
    | none =>
      obtain rfl := Except.ok.inj h
      exact .unmade hsome hshort hrate
    | some realized =>
      obtain ⟨starved, hstarved, h⟩ := Result.bind_eq_ok.1 h
      cases starved with
      | true =>
        obtain rfl := Except.ok.inj h
        exact .starved hsome hshort hrate hstarved
      | false =>
        obtain rfl := Except.ok.inj h
        exact .served hsome hshort hrate hstarved

theorem Weighs.eq_ok (h : a.Weighs ε slot mult capacity optimal r) :
    a.weigh ε slot mult capacity optimal = .ok r := by
  unfold weigh
  cases h with
  | unsupplied hzero => exact if_pos hzero
  | copies hsome hshort hneeded hraised =>
    rw [hsome]
    exact Result.bind_eq_ok.2 ⟨_, hshort, Result.bind_eq_ok.2 ⟨_, hneeded, Result.bind_eq_ok.2 ⟨_, hraised, rfl⟩⟩⟩
  | unmade hsome hshort hrate =>
    rw [hsome]
    exact Result.bind_eq_ok.2 ⟨_, hshort, Result.bind_eq_ok.2 ⟨_, hrate, rfl⟩⟩
  | served hsome hshort hrate hserved =>
    rw [hsome]
    exact Result.bind_eq_ok.2 ⟨_, hshort, Result.bind_eq_ok.2 ⟨_, hrate, Result.bind_eq_ok.2 ⟨_, hserved, rfl⟩⟩⟩
  | starved hsome hshort hrate hstarved =>
    rw [hsome]
    exact Result.bind_eq_ok.2 ⟨_, hshort, Result.bind_eq_ok.2 ⟨_, hrate, Result.bind_eq_ok.2 ⟨_, hstarved, rfl⟩⟩⟩

/-- A slot asks for something by comparing two rates. -/
theorem exists_compares (h : a.ask ε i slot = .ok r) :
    ∃ t s inflow optimal outflow capacity, a.Compares i slot t s inflow optimal outflow capacity ∧
      a.Weighs ε slot t.mult capacity optimal r := by
  obtain ⟨t, ht, h⟩ := Result.bind_eq_ok.1 h
  obtain ⟨s, hs, h⟩ := Result.bind_eq_ok.1 h
  obtain ⟨inflow, hinflow, h⟩ := Result.bind_eq_ok.1 h
  obtain ⟨optimal, hoptimal, h⟩ := Result.bind_eq_ok.1 h
  obtain ⟨outflow, houtflow, h⟩ := Result.bind_eq_ok.1 h
  obtain ⟨capacity, hcapacity, h⟩ := Result.bind_eq_ok.1 h
  exact ⟨t, s, inflow, optimal, outflow, capacity,
    ⟨stream_eq_ok ht, stream_eq_ok hs, hinflow, hoptimal, houtflow, hcapacity⟩, weighs_of_eq_ok h⟩

theorem Compares.ask_eq_ok (h : a.Compares i slot t s inflow optimal outflow capacity)
    (hr : a.Weighs ε slot t.mult capacity optimal r) : a.ask ε i slot = .ok r :=
  Result.bind_eq_ok.2 ⟨t, stream_of_eq_some h.supplier, Result.bind_eq_ok.2 ⟨s, stream_of_eq_some h.consumer,
    Result.bind_eq_ok.2 ⟨inflow, h.takes, Result.bind_eq_ok.2 ⟨optimal, h.takesAll,
      Result.bind_eq_ok.2 ⟨outflow, h.makes, Result.bind_eq_ok.2 ⟨capacity, h.makesAll, hr.eq_ok⟩⟩⟩⟩⟩⟩

end Arena

namespace Balancing

/-- What is done about what a slot of stream `i` asks for. -/
def follow (balance : Nat → Action Balancing Unit) (i : Nat) (pending : Pending) (slot : Slot) :
    Ask → Action Balancing Pending
  | .nothing => return pending
  | .unsupplied => do
    Action.report (.cannotSupply slot.supplier slot.product i)
    return pending
  | .copies mult => return pending.raise slot.supplier mult
  | .balance => do
    balance slot.supplier
    return pending

variable {α β γ : Type}

/-- To go on with a query is to go on with each of its steps. -/
theorem bind_query_eq {f : Arena → Except Fault α} {g : α → Arena → Except Fault β} {k : α → Action Balancing γ}
    {l : β → Action Balancing γ} (h : ∀ x, k x = query (g x) >>= l) :
    query f >>= k = query (fun a => f a >>= (g · a)) >>= l := by
  funext b
  change (liftM (f b.state.arena) >>= k) b = (liftM (f b.state.arena >>= (g · b.state.arena)) >>= l) b
  cases f b.state.arena with
  | ok x => exact congrFun (h x) b
  | error e => rfl

/-- What needs no arena is a step of a query as well. -/
theorem bind_lift_eq {x : Except Fault α} {g : α → Arena → Except Fault β} {k : α → Action Balancing γ}
    {l : β → Action Balancing γ} (h : ∀ x, k x = query (g x) >>= l) :
    liftM x >>= k = query (fun a => x >>= (g · a)) >>= l :=
  bind_query_eq (f := fun _ => x) h

variable {ε : Float} {balance : Nat → Action Balancing Unit} {i : Nat} {pending : Pending} {slot : Slot}

/-- To look at a slot is to follow what it asks for. -/
theorem slot_eq : Balancing.slot balance ε i pending slot =
    query (Arena.ask ε i slot) >>= follow balance i pending slot := by
  refine bind_query_eq fun t => bind_query_eq fun s => bind_lift_eq fun inflow => bind_lift_eq fun optimal => ?_
  refine bind_lift_eq fun outflow => bind_lift_eq fun capacity => ?_
  unfold Arena.weigh
  split
  · rfl
  refine bind_lift_eq fun short => ?_
  split
  · exact bind_lift_eq fun needed => bind_lift_eq fun mult => rfl
  refine bind_query_eq fun realized => ?_
  cases realized with
  | none => rfl
  | some realized =>
    refine bind_lift_eq fun starved => ?_
    cases starved with
    | true => rfl
    | false => rfl

end Balancing

end Conveyor
