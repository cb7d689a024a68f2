-- SUMMARY: The public calls of a factory as data, and runs of them.
import Conveyor.Factory.Commands
import Conveyor.Proofs.Factory.Registration

/-!
# Calls and runs

A run is a list of public calls, each with any arguments, made one after another whether the calls
before it answered or failed. Between two calls the order in which streams are advanced may be
changed, which is a call here too.
-/

namespace Conveyor.Factory

/-- A public call. -/
inductive Call
  | registerProduct (name module : String)
  | registerRecipe (name : String) (inputs outputs period : Value)
  | registerStream (name : String) (definition : Value)
  | setBuffer (stream product : String) (capacity : Value)
  | solve (stream : String)
  | tick (ticks : Value)
  | log (stream : String) (products : List String)
  | method (stream name : String) (args : List Value)
  | efficiency (stream : String)
  | rateOf (stream product : String)
  | setOrder (order : TickOrder)

/-- What a call answers. -/
inductive Reply
  | done
  | product (p : Product)
  | recipe (r : Recipe)
  | index (i : Nat)
  | changes (changes : List NamedChange)
  | ticks (ticks : List StreamTick)
  | report (report : StreamReport)
  | answer (answer : Answer)
  | efficiency (x : Float)
  | rate (rate : Option Rate)

namespace Call

/-- Make a call. -/
def act : Call → Action Factory Reply
  | registerProduct name module => do return .product (← Factory.registerProduct name module)
  | registerRecipe name inputs outputs period => do
    return .recipe (← Factory.registerRecipe name inputs outputs period)
  | registerStream name definition => do
    return .index (← Factory.registerStream name definition)
  | setBuffer stream product capacity => do
    Factory.setBuffer stream product capacity
    return .done
  | solve stream => do return .changes (← Factory.solve stream)
  | tick ticks => do return .ticks (← Factory.tick ticks)
  | log stream products => do
    let f ← Action.current
    return .report (← f.report stream products)
  | method stream name args => do return .answer (← Factory.call stream name args)
  | efficiency stream => do
    let f ← Action.current
    return .efficiency (← f.efficiency stream)
  | rateOf stream product => do
    let f ← Action.current
    return .rate (← f.rateOf stream product)
  | setOrder order => do
    Action.update fun f => { f with config := { f.config with tickOrder := order } }
    return .done

end Call

/-! ## What calls keep -/

section Commands

variable {P : Factory → Prop}

/-- Setting a capacity resizes one buffer. -/
theorem keeps_setBuffer (stream product : String) (capacity : Value)
    (h : ∀ f, P f → ∀ i s, f.arena.stream? i = some s → ∀ p b, s.buffers.get? p = some b →
      ∀ capacity, 0 ≤ capacity → P { f with
        arena := f.arena.modify i fun s => { s with buffers := s.buffers.insert p (b.resize capacity) } }) :
    Action.Keeps P (setBuffer stream product capacity) := by
  unfold setBuffer
  apply Action.Keeps.bind_current
  intro f hf
  apply Action.Keeps.bind_lift
  intro i _
  apply Action.Keeps.bind_lift
  intro s hs
  apply Action.Keeps.bind_lift
  intro p _
  apply Action.Keeps.bind_lift
  intro capacity hcapacity
  cases hb : s.buffers.get? p with
  | none => exact Action.Keeps.lift
  | some b =>
    have hresized := h f hf i s (Arena.stream_eq_ok hs) p b hb capacity (le_of_requireInt hcapacity)
    apply Action.Keeps.bind (Action.Keeps.assign hresized)
    exact fun _ => Action.Triple.ite (fun _ => Action.Keeps.report) fun _ => Action.Keeps.pure

/-- What an action keeps of the arena of a factory is all that the factory may rely on. -/
theorem keeps_onArena {α : Type} {f : Factory} {act : Action Arena α} {R : Arena → Prop} (h : Action.Keeps R act)
    (hstart : R f.arena) (hdone : ∀ a, R a → P { f with arena := a }) :
    Action.Triple (· = f) (onArena act) (fun _ => P) fun _ => P := by
  refine Action.Triple.focus (S := fun _ => R) (F := fun _ => R) (fun g hg => ?_) (fun g hg _ a ha => ?_)
    fun g hg _ a ha => ?_
  · refine h.weaken (fun a ha => ?_) (fun _ _ ha => ha) fun _ _ ha => ha
    rw [ha, hg]
    exact hstart
  · exact hg ▸ hdone a ha
  · exact hg ▸ hdone a ha

variable {R : Factory → Arena → Prop}

theorem keeps_solve (stream : String) (hstart : ∀ f, P f → R f f.arena)
    (h : ∀ f, P f → ∀ i ε, Action.Keeps (R f) (Arena.solve i ε))
    (hdone : ∀ f, P f → ∀ a, R f a → P { f with arena := a }) : Action.Keeps P (solve stream) := by
  refine Action.Triple.bind_current fun f hf => Action.Triple.bind_lift (fun _ _ _ h => h ▸ hf) fun i _ => ?_
  refine Action.Triple.bind (R := fun _ => P) (keeps_onArena (h f hf i _) (hstart f hf) (hdone f hf)) fun _ => ?_
  exact Action.Keeps.mapM fun _ _ => Action.Keeps.bind_lift fun _ _ => Action.Keeps.pure

theorem keeps_tick (ticks : Value) (hstart : ∀ f, P f → R f f.arena)
    (h : ∀ f, P f → ∀ n, Action.Keeps (R f) (Arena.tick n f.config.tickOrder f.config.bufferMultiplier))
    (hdone : ∀ f, P f → ∀ a, R f a → P { f with arena := a }) : Action.Keeps P (tick ticks) :=
  Action.Keeps.bind_lift fun n _ => Action.Triple.bind_current fun f hf =>
    keeps_onArena (h f hf n) (hstart f hf) (hdone f hf)

end Commands

/-- The call sets a capacity, by its own name or by that of a method. -/
def Call.resizes : Call → Bool
  | setBuffer .. => true
  | method _ name _ => name = "buffer"
  | _ => false

/-- The property is kept by every call that can change a factory, but for those that set a capacity. -/
structure ClosedUnderUse (P : Factory → Prop) : Prop where
  registerProduct : ∀ name module, Action.Keeps P (registerProduct name module)
  registerRecipe : ∀ name inputs outputs period,
    Action.Keeps P (registerRecipe name inputs outputs period)
  registerStream : ∀ name definition, Action.Keeps P (registerStream name definition)
  solve : ∀ stream, Action.Keeps P (solve stream)
  tick : ∀ ticks, Action.Keeps P (tick ticks)
  setOrder : ∀ f, P f → ∀ tickOrder, P { f with config := { f.config with tickOrder } }

/-- The property is kept by every call that can change a factory. -/
structure ClosedUnderCalls (P : Factory → Prop) : Prop extends ClosedUnderUse P where
  setBuffer : ∀ stream product capacity, Action.Keeps P (setBuffer stream product capacity)

namespace ClosedUnderUse

variable {P : Factory → Prop}

theorem keeps_call (h : ClosedUnderUse P) (stream : String) {method : String} (args : List Value)
    (hset : method = "buffer" → ∀ product capacity, Action.Keeps P (setBuffer stream product capacity)) :
    Action.Keeps P (call stream method args) := by
  unfold call
  refine Action.Triple.ite (fun hmethod => ?buffer) fun _ =>
    Action.Triple.ite (fun _ => ?solve) fun _ => Action.Triple.ite (fun _ => ?log) fun _ => ?other
  case buffer =>
    split
    · exact Action.Keeps.bind (hset hmethod _ _) fun _ => Action.Keeps.pure
    · exact Action.Keeps.lift
  case solve =>
    refine Action.Triple.ite (fun _ => ?_) fun _ => Action.Keeps.lift
    exact Action.Keeps.bind (h.solve stream) fun _ => Action.Keeps.pure
  case log =>
    split
    · exact Action.Keeps.bind_current fun _ _ =>
        Action.Keeps.bind_lift fun _ _ => Action.Keeps.pure
    · exact Action.Keeps.lift
  case other => exact Action.Keeps.lift

/-- A call keeps the property, if setting a capacity does where the call sets one. -/
theorem keeps_act (h : ClosedUnderUse P) {call : Call}
    (hset : call.resizes = true → ∀ stream product capacity, Action.Keeps P (setBuffer stream product capacity)) :
    Action.Keeps P call.act := by
  cases call with
  | registerProduct name module =>
    exact Action.Keeps.bind (h.registerProduct name module) fun _ => Action.Keeps.pure
  | registerRecipe name inputs outputs period =>
    exact Action.Keeps.bind (h.registerRecipe name inputs outputs period) fun _ => Action.Keeps.pure
  | registerStream name definition =>
    exact Action.Keeps.bind (h.registerStream name definition) fun _ => Action.Keeps.pure
  | setBuffer stream product capacity =>
    exact Action.Keeps.bind (hset rfl stream product capacity) fun _ => Action.Keeps.pure
  | solve stream => exact Action.Keeps.bind (h.solve stream) fun _ => Action.Keeps.pure
  | tick ticks => exact Action.Keeps.bind (h.tick ticks) fun _ => Action.Keeps.pure
  | log | efficiency | rateOf =>
    exact Action.Keeps.bind_current fun _ _ =>
      Action.Keeps.bind_lift fun _ _ => Action.Keeps.pure
  | method stream name args =>
    refine Action.Keeps.bind (h.keeps_call stream args fun hname => ?_) fun _ => Action.Keeps.pure
    exact hset (decide_eq_true hname) stream
  | setOrder order =>
    exact Action.Keeps.bind (Action.Keeps.update fun f hf => h.setOrder f hf order)
      fun _ => Action.Keeps.pure

end ClosedUnderUse

theorem ClosedUnderCalls.keeps_act {P : Factory → Prop} (h : ClosedUnderCalls P) (call : Call) :
    Action.Keeps P call.act :=
  h.toClosedUnderUse.keeps_act fun _ => h.setBuffer

/-! ## Runs -/

/-- What a run of calls leaves. -/
def run (calls : List Call) (s : Logged Factory) : Logged Factory :=
  calls.foldl (fun s call => call.act.after s) s

/-- What each call of a run keeps, whether it answers or fails, the run keeps. -/
theorem run_keeps_of_forall {P : Factory → Prop} {calls : List Call}
    (h : ∀ call ∈ calls, Action.Keeps P call.act) {s : Logged Factory} (hs : P s.state) :
    P (run calls s).state := by
  induction calls generalizing s with
  | nil => exact hs
  | cons call calls ih =>
    obtain ⟨hcall, hcalls⟩ := List.forall_mem_cons.1 h
    exact ih hcalls (hcall.after hs)

/-- What every call keeps, every run keeps. -/
theorem run_keeps {P : Factory → Prop} (h : ∀ call : Call, Action.Keeps P call.act)
    (calls : List Call) {s : Logged Factory} (hs : P s.state) : P (run calls s).state :=
  run_keeps_of_forall (fun call _ => h call) hs

end Conveyor.Factory
