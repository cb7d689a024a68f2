-- SUMMARY: What the calls of a factory leave of the streams that are there.
import Conveyor.Proofs.Carries
import Conveyor.Proofs.Factory.Calls

/-!
# Streams that last, call by call

Of the public calls one passes time and one balances, by its own name or by that of a method. All others
leave the streams that are there as they are, but for their stock.
-/

namespace Conveyor.Factory

variable {R : Stream → Stream → Prop} {a : Arena} {f : Factory}

/-- The call passes time. -/
def Call.passesTime : Call → Bool
  | tick _ => true
  | _ => false

/-- The call balances a supply chain. -/
def Call.balances : Call → Bool
  | solve _ => true
  | method _ name _ => name = "solve"
  | _ => false

/-- The streams of the arena have become streams of the factory. -/
abbrev Carrying (R : Stream → Stream → Prop) (a : Arena) (f : Factory) : Prop := a.Carries R f.arena

/-- Only streams that were not there are ever dropped again. -/
theorem keeps_carrying_registerStream (name : String) (definition : Value) :
    Action.Keeps (Carrying R a) (registerStream name definition) := by
  refine keeps_registerStream name definition ?_ ?_ ?_
  · exact fun _ hf _ _ _ _ _ _ _ _ => hf.append _
  · exact fun f g hf hg => hg.truncate hf.size_le
  · exact fun _ hf _ => hf

theorem keeps_carrying_setBuffer (hR : Stream.Lasting R) (stream product : String) (capacity : Value) :
    Action.Keeps (Carrying R a) (setBuffer stream product capacity) :=
  keeps_setBuffer stream product capacity fun _ hf _ _ _ _ _ _ _ _ =>
    hf.modify hR fun s _ => hR.buffers s _

theorem keeps_carrying_solve (hR : Stream.Lasting R) (hmult : ∀ s n, s.mult ≤ n → R s { s with mult := n })
    (stream : String) : Action.Keeps (Carrying R a) (solve stream) :=
  keeps_solve stream (fun _ hf => hf) (fun _ _ i ε => (Arena.Carries.closedUnderRaise hR hmult).keeps_solve i ε)
    fun _ _ _ ha => ha

theorem keeps_carrying_tick (hR : Stream.Lasting R) (hnext : ∀ s n, R s { s with next := some n })
    (ticks : Value) : Action.Keeps (Carrying R a) (tick ticks) :=
  keeps_tick ticks (fun _ hf => hf) (fun _ _ n => (Arena.Carries.closedUnderTime hR hnext).keeps_tick n _)
    fun _ _ _ ha => ha

theorem keeps_carrying_call (hR : Stream.Lasting R) (stream : String) {method : String} (args : List Value)
    (hmult : method = "solve" → ∀ s n, s.mult ≤ n → R s { s with mult := n }) :
    Action.Keeps (Carrying R a) (call stream method args) := by
  unfold call
  refine Action.Triple.ite (fun _ => ?buffer) fun _ => Action.Triple.ite (fun hmethod => ?solve) fun _ =>
    Action.Triple.ite (fun _ => ?log) fun _ => Action.Keeps.lift
  case buffer =>
    split
    · exact Action.Keeps.bind (keeps_carrying_setBuffer hR _ _ _) fun _ => Action.Keeps.pure
    · exact Action.Keeps.lift
  case solve =>
    refine Action.Triple.ite (fun _ => ?_) fun _ => Action.Keeps.lift
    exact Action.Keeps.bind (keeps_carrying_solve hR (hmult hmethod) stream) fun _ => Action.Keeps.pure
  case log =>
    split
    · exact Action.Keeps.bind_current fun _ _ => Action.Keeps.bind_lift fun _ _ => Action.Keeps.pure
    · exact Action.Keeps.lift

/-- Whatever is called, answered or not, the streams that were there are there, and what has become of
them is as the relation says, if it admits countdowns that are set where time passes, and multipliers
that go up where a supply chain is balanced. -/
theorem keeps_carrying_act (hR : Stream.Lasting R) {call : Call}
    (hnext : call.passesTime = true → ∀ s n, R s { s with next := some n })
    (hmult : call.balances = true → ∀ s n, s.mult ≤ n → R s { s with mult := n }) :
    Action.Keeps (Carrying R a) call.act := by
  cases call with
  | registerProduct name module =>
    refine Action.Keeps.bind ?_ fun _ => Action.Keeps.pure
    exact keeps_registerProduct name module fun _ hf _ _ _ _ => hf
  | registerRecipe name inputs outputs period =>
    refine Action.Keeps.bind ?_ fun _ => Action.Keeps.pure
    exact keeps_registerRecipe name inputs outputs period fun _ hf _ _ _ => hf
  | registerStream name definition =>
    exact Action.Keeps.bind (keeps_carrying_registerStream name definition) fun _ => Action.Keeps.pure
  | setBuffer stream product capacity =>
    exact Action.Keeps.bind (keeps_carrying_setBuffer hR stream product capacity) fun _ => Action.Keeps.pure
  | solve stream =>
    exact Action.Keeps.bind (keeps_carrying_solve hR (hmult rfl) stream) fun _ => Action.Keeps.pure
  | tick ticks => exact Action.Keeps.bind (keeps_carrying_tick hR (hnext rfl) ticks) fun _ => Action.Keeps.pure
  | log | efficiency | rateOf =>
    exact Action.Keeps.bind_current fun _ _ => Action.Keeps.bind_lift fun _ _ => Action.Keeps.pure
  | method stream name args =>
    exact Action.Keeps.bind (keeps_carrying_call hR stream args fun h => hmult (decide_eq_true h)) fun _ =>
      Action.Keeps.pure
  | setOrder order => exact Action.Keeps.bind (Action.Keeps.update fun _ hf => hf) fun _ => Action.Keeps.pure

end Conveyor.Factory
