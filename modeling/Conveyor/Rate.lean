-- SUMMARY: Rates, the throughput arithmetic behind every query: adding, scaling, comparing and printing.
import Conveyor.Number.Checked

/-!
# Rates

A rate says that an amount of units completes every so many ticks. Parallel copies scale the amount,
an efficiency stretches the ticks, so the amount stays an integer. Rates on whole bases add over the
least common multiple of the bases; all others add by throughput.
-/

namespace Conveyor

/-- `amount` units complete every `ticks` ticks. -/
structure Rate where
  amount : Int
  ticks : Number
  amount_nonneg : 0 ≤ amount
  ticks_pos : ticks.IsPositive
deriving DecidableEq

namespace Rate

/-! ## Building -/

/-- The rate of an amount over a tick base, if the two make one. -/
def make (amount : Int) (ticks : Number) : Except Fault Rate :=
  if ha : 0 ≤ amount then
    if ht : ticks.IsPositive then .ok ⟨amount, ticks, ha, ht⟩
    else Fault.stop (.nonPositiveTicks (.ofNumber ticks))
  else Fault.stop (.negativeAmount amount)

/-- Nothing every tick. -/
def zero : Rate := ⟨0, .whole 1, by decide, by decide⟩

instance : Inhabited Rate := ⟨zero⟩

def isZero (r : Rate) : Bool := r.amount = 0

theorem make_eq_ok (r : Rate) : make r.amount r.ticks = .ok r := by
  obtain ⟨amount, ticks, ha, ht⟩ := r
  simp [make, ha, ht]

/-! ## Throughput -/

/-- Units per tick. -/
def throughput (r : Rate) : Except Fault Float :=
  (Number.whole r.amount).div r.ticks

/-- How much of the throughput of `s` the rate `r` makes up. -/
def ratio (r s : Rate) : Except Fault Float :=
  if s.isZero then .error .zeroRateDivisor
  else do
    let x ← r.throughput
    let y ← s.throughput
    divideDoubles x y

/-- Compare two rates by throughput. -/
def compareBy (test : Float → Float → Bool) (r s : Rate) : Except Fault Bool := do
  let x ← r.throughput
  let y ← s.throughput
  return test x y

/-- The rate falls measurably below a target. -/
def isShortOf (rate target : Rate) (ε : Float) : Except Fault Bool :=
  rate.compareBy (fun x y => x < y * (1.0 - ε)) target

/-- The same amount over the same base; equal throughput alone is not enough. -/
def same (r s : Rate) : Bool :=
  r.amount = s.amount && r.ticks.same s.ticks

/-! ## Adding -/

/-- Two rates on whole bases, over the least common multiple of the bases. -/
def addWhole (r s : Rate) (m n : Int) : Except Fault Rate :=
  let base : Int := Int.lcm m n
  make (r.amount * (base / m) + s.amount * (base / n)) (.whole base)

/-- Two rates by throughput: the amounts add, over the ticks that give the summed throughput. -/
def addThroughput (r s : Rate) : Except Fault Rate := do
  let x ← r.throughput
  let y ← s.throughput
  let amount := r.amount + s.amount
  let ticks ← (Number.whole amount).div (.real (x + y))
  make amount (.real ticks)

/-- Both bases as integers, if both are whole. -/
def wholeBases? (r s : Rate) : Except Fault (Option (Int × Int)) := do
  match ← r.ticks.integer? with
  | none => return none
  | some m => return (← s.ticks.integer?).map fun n => (m, n)

/-- The throughput of two parallel sources together. A zero rate changes nothing. -/
def add (r s : Rate) : Except Fault Rate :=
  if s.isZero then .ok r
  else if r.isZero then .ok s
  else if r.ticks.same s.ticks then make (r.amount + s.amount) r.ticks
  else do
    match ← wholeBases? r s with
    | some (m, n) => addWhole r s m n
    | none => addThroughput r s

/-- The throughput of many parallel sources together. -/
def sum (rs : List Rate) : Except Fault Rate := rs.foldlM add zero

/-! ## Scaling -/

/-- The rate of so many parallel copies. -/
def times (r : Rate) (copies : Int) : Except Fault Rate :=
  if copies = 0 then .ok zero else make (r.amount * copies) r.ticks

/-- The rate at an efficiency: the same amount over more ticks. -/
def stretch (r : Rate) (efficiency : Float) : Except Fault Rate :=
  if efficiency ≤ 0.0 || r.isZero then .ok zero
  else do
    let ticks ← r.ticks.div (.real efficiency)
    make r.amount (.real ticks)

/-! ## Text -/

/-- Amount and base as figures. -/
def text (r : Rate) : Except Fault String := do
  let amount ← toDouble r.amount
  let ticks ← r.ticks.double
  return Decimal.figure amount ++ " / " ++ Decimal.figure ticks ++ " ticks"

end Rate

end Conveyor
