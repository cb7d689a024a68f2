-- SUMMARY: The operators between rates and plain values.
import Conveyor.Rate
import Conveyor.Value.Scaling

/-!
# Operands

Rates combine by the usual signs. Only some combinations with plain values mean anything: a rate
may be multiplied with an integer or a double on either side, and zero may be added on its left,
where a sum starts. All other mixtures are refused.
-/

namespace Conveyor

/-- A rate or a plain value. -/
inductive Operand
  | rate (r : Rate)
  | value (v : Value)

namespace Operand

def ofBool (b : Bool) : Operand := .value (.bool b)

/-- A value that equals the number zero. -/
def isZeroValue (v : Value) : Bool :=
  v.number?.any fun n => n.same (.whole 0)

def add : Operand → Operand → Except Fault Operand
  | .rate r, .rate s => (r.add s).map .rate
  | .value v, .rate r => if isZeroValue v then .ok (.rate r) else .error .unsupported
  | .rate _, .value _ => .error .unsupported
  | .value v, .value w =>
    match v.number?, w.number? with
    | some a, some b => (a.add b).map (.value <| .ofNumber ·)
    | _, _ =>
      match v, w with
      | .text s, .text t => .ok (.value (.text (s ++ t)))
      | .list xs, .list ys => .ok (.value (.list (xs ++ ys)))
      | _, _ => .error .unsupported

/-- A rate by a factor. -/
def scale (r : Rate) : Value → Except Fault Operand
  | .int n => (r.times n).map .rate
  | .real x => (r.stretch x).map .rate
  | _ => .error .unsupported

def mul : Operand → Operand → Except Fault Operand
  | .rate _, .rate _ => .error .unsupported
  | .rate r, .value v => scale r v
  | .value v, .rate r => scale r v
  | .value v, .value w => (v.mul w).map .value

def div : Operand → Operand → Except Fault Operand
  | .rate r, .rate s => (r.ratio s).map (.value <| .real ·)
  | .value v, .value w =>
    match v.number?, w.number? with
    | some a, some b => (a.div b).map (.value <| .real ·)
    | _, _ => .error .unsupported
  | _, _ => .error .unsupported

/-- The same number, text, or pair of rates. -/
def same : Operand → Operand → Bool
  | .rate r, .rate s => r.same s
  | .value v, .value w =>
    match v.number?, w.number?, v, w with
    | some a, some b, _, _ => a.same b
    | _, _, .text s, .text t => s = t
    | _, _, .none, .none => true
    | _, _, _, _ => false
  | _, _ => false

/-- Compare by `test` on doubles, and by `admits` on the order of plain values. -/
def compareBy (test : Float → Float → Bool) (admits : Ordering → Bool) :
    Operand → Operand → Except Fault Operand
  | .rate r, .rate s => (r.compareBy test s).map ofBool
  | .value v, .value w =>
    match v.number?, w.number?, v, w with
    | some a, some b, _, _ => .ok (ofBool ((a.order b).any admits))
    | _, _, .text s, .text t => .ok (ofBool (admits (compare s t)))
    | _, _, _, _ => .error .unsupported
  | _, _ => .error .unsupported

/-- Operands in a row, added from the left onto zero. -/
def sum (xs : List Operand) : Except Fault Operand :=
  xs.foldlM add (.value (.int 0))

def text : Operand → Except Fault Operand
  | .rate r => r.text.map (.value <| .text ·)
  | .value v =>
    if v.isWritable then .ok (.value (.text v.label)) else .error .tooManyDigits

def throughput : Operand → Except Fault Operand
  | .rate r => r.throughput.map (.value <| .real ·)
  | .value _ => .error .noProperty

/-- A rate falls measurably below a target; both have to be rates, the first one first. -/
def isShortOf (rate target : Operand) (ε : Float) : Except Fault Bool := do
  match rate, target with
  | .rate r, .rate s => r.isShortOf s ε
  | .rate r, .value _ =>
    let _ ← r.throughput
    throw .noProperty
  | .value _, _ => throw .noProperty

def isZero : Operand → Except Fault Operand
  | .rate r => .ok (ofBool r.isZero)
  | .value _ => .error .noProperty

/-- The rate of an amount over a base, both given as values. The amount is checked first. -/
def ofRate (amount ticks : Value) : Except Fault Operand :=
  match amount.number?, ticks.number? with
  | some (.whole a), some t =>
    if 0 ≤ a ∧ ¬ t.IsPositive then Fault.stop (.nonPositiveTicks ticks)
    else (Rate.make a t).map .rate
  | some (.whole a), none => Fault.stop (if a < 0 then .negativeAmount a else .unsupported)
  | _, _ => .error .unsupported

end Operand

end Conveyor
