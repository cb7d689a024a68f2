-- SUMMARY: Which faults can stop a computation: figures may make none, but nothing is refused for them.
import Conveyor.Arena.Balance
import Conveyor.Arena.Simulation

/-!
# Faults that can occur

A refusal is an answer to whoever made a call; every other fault is a breakdown on the way. The
arithmetic of rates and clocks breaks down only. What is refused is refused by a check of a name, a
figure or a binding, and each check has its own kind.
-/

namespace Conveyor

/-- The kind of refusal that a fault is, if it is one. -/
def Fault.kind? : Fault → Option Refusal.Kind
  | .refused r => some r.kind
  | _ => none

/-- Whatever stops the computation is a fault with `E`. -/
def Faults {α : Type} (E : Fault → Prop) (x : Except Fault α) : Prop :=
  ∀ f, x = .error f → E f

/-- The computation may break down, but it is not refused. -/
abbrev Unrefused {α : Type} (x : Except Fault α) : Prop := Faults (·.kind? = none) x

/-- The computation is not refused because of a cycle. -/
abbrev NotCyclic {α : Type} (x : Except Fault α) : Prop := Faults (·.kind? ≠ some .cycle) x

namespace Faults

variable {α β : Type} {E E' : Fault → Prop}

/-! ## Rules -/

theorem ok (a : α) : Faults E (.ok a) := fun _ h => by cases h

theorem error {f : Fault} (h : E f) : Faults E (.error f : Except Fault α) := by
  rintro _ ⟨⟩
  exact h

theorem weaken {x : Except Fault α} (h : Faults E x) (hE : ∀ f, E f → E' f) : Faults E' x :=
  fun f hf => hE f (h f hf)

theorem bind {x : Except Fault α} {k : α → Except Fault β} (h : Faults E x)
    (hk : ∀ a, x = .ok a → Faults E (k a)) : Faults E (x >>= k) := by
  cases x with
  | ok a => exact hk a rfl
  | error f => exact error (h f rfl)

theorem map {x : Except Fault α} {g : α → β} (h : Faults E x) : Faults E (x.map g) := by
  cases x with
  | ok a => exact ok (g a)
  | error f => exact error (h f rfl)

theorem ite {c : Prop} [Decidable c] {x y : Except Fault α} (hx : c → Faults E x)
    (hy : ¬ c → Faults E y) : Faults E (if c then x else y) := by
  split
  · exact hx ‹_›
  · exact hy ‹_›

theorem foldlM {f : β → α → Except Fault β} {xs : List α} (h : ∀ b, ∀ x ∈ xs, Faults E (f b x))
    (b : β) : Faults E (xs.foldlM f b) := by
  induction xs generalizing b with
  | nil => exact ok b
  | cons x xs ih =>
    rw [List.foldlM_cons]
    exact bind (h b x List.mem_cons_self) fun c _ => ih (fun b y hy => h b y (List.mem_cons_of_mem _ hy)) c

theorem mapM {f : α → Except Fault β} {xs : List α} (h : ∀ x ∈ xs, Faults E (f x)) :
    Faults E (xs.mapM f) := by
  induction xs with
  | nil => exact ok []
  | cons x xs ih =>
    rw [List.mapM_cons]
    exact bind (h x List.mem_cons_self) fun _ _ =>
      bind (ih fun y hy => h y (List.mem_cons_of_mem _ hy)) fun ys _ => ok _

theorem forM {f : α → Except Fault PUnit} {xs : List α} (h : ∀ x ∈ xs, Faults E (f x)) :
    Faults E (xs.forM f) := by
  induction xs with
  | nil => exact ok _
  | cons x xs ih =>
    exact bind (h x List.mem_cons_self) fun _ _ => ih fun y hy => h y (List.mem_cons_of_mem _ hy)

/-- A fault that cannot be put into words is another one, which is no refusal. -/
theorem stop {f : Fault} (h : E f) (hdigits : E .tooManyDigits) :
    Faults E (f.stop : Except Fault α) := by
  unfold Fault.stop
  split
  · exact error h
  · exact error hdigits

end Faults

theorem Unrefused.notCyclic {α : Type} {x : Except Fault α} (h : Unrefused x) : NotCyclic x :=
  h.weaken fun _ hf => by simp [hf]

/-- A refusal of any other kind is none for a cycle. -/
theorem notCyclic_fail {α : Type} {r : Refusal} (h : r.kind ≠ .cycle) :
    NotCyclic (r.fail : Except Fault α) :=
  Faults.stop (fun hf => h (Option.some.inj hf)) (by simp [Fault.kind?])

namespace Unrefused

/-! ## Numbers -/

theorem toDouble (n : Int) : Unrefused (toDouble n) := by
  unfold Conveyor.toDouble
  split
  · exact Faults.ok _
  · exact Faults.error rfl

theorem divideInts (m n : Int) : Unrefused (divideInts m n) := by
  refine Faults.ite (fun _ => Faults.error rfl) fun _ => ?_
  split
  · exact Faults.ok _
  · exact Faults.error rfl

theorem divideDoubles (x y : Float) : Unrefused (divideDoubles x y) :=
  Faults.ite (fun _ => Faults.error rfl) fun _ => Faults.ok _

theorem finiteFraction (x : Float) : Unrefused (finiteFraction x) := by
  unfold Conveyor.finiteFraction
  split
  · exact Faults.ok _
  · exact Faults.ite (fun _ => Faults.error rfl) fun _ => Faults.error rfl

theorem ceiling (x : Float) : Unrefused (ceiling x) := (finiteFraction x).map

theorem double (a : Number) : Unrefused a.double := by
  cases a with
  | whole n => exact toDouble n
  | real x => exact Faults.ok x

theorem truncate (a : Number) : Unrefused a.truncate := by
  cases a with
  | whole n => exact Faults.ok n
  | real x => exact (finiteFraction x).map

theorem integer? (a : Number) : Unrefused a.integer? :=
  (double a).bind fun _ _ => Faults.ok _

theorem div (a b : Number) : Unrefused (a.div b) := by
  have hdoubles : Unrefused (do Conveyor.divideDoubles (← a.double) (← b.double)) :=
    (double a).bind fun x _ => (double b).bind fun y _ => divideDoubles x y
  cases a with
  | real x => exact hdoubles
  | whole m =>
    cases b with
    | whole n => exact divideInts m n
    | real y => exact hdoubles

/-! ## Rates -/

theorem make (amount : Int) (ticks : Number) : Unrefused (Rate.make amount ticks) := by
  unfold Rate.make
  split
  · split
    · exact Faults.ok _
    · exact Faults.stop rfl rfl
  · exact Faults.stop rfl rfl

theorem throughput (r : Rate) : Unrefused r.throughput := div _ _

theorem ratio (r s : Rate) : Unrefused (r.ratio s) :=
  Faults.ite (fun _ => Faults.error rfl) fun _ => (throughput r).bind fun x _ =>
    (throughput s).bind fun y _ => divideDoubles x y

theorem isShortOf (r s : Rate) (ε : Float) : Unrefused (r.isShortOf s ε) :=
  (throughput r).bind fun _ _ => (throughput s).bind fun _ _ => Faults.ok _

theorem wholeBases? (r s : Rate) : Unrefused (r.wholeBases? s) := by
  refine (integer? r.ticks).bind fun m _ => ?_
  cases m with
  | none => exact Faults.ok _
  | some m => exact (integer? s.ticks).bind fun _ _ => Faults.ok _

theorem addThroughput (r s : Rate) : Unrefused (r.addThroughput s) :=
  (throughput r).bind fun _ _ => (throughput s).bind fun _ _ => (div _ _).bind fun _ _ => make _ _

theorem add (r s : Rate) : Unrefused (r.add s) := by
  refine Faults.ite (fun _ => Faults.ok _) fun _ => Faults.ite (fun _ => Faults.ok _) fun _ => ?_
  refine Faults.ite (fun _ => make _ _) fun _ => (wholeBases? r s).bind fun bases _ => ?_
  cases bases with
  | none => exact addThroughput r s
  | some bases => exact make _ _

theorem times (r : Rate) (copies : Int) : Unrefused (r.times copies) :=
  Faults.ite (fun _ => Faults.ok _) fun _ => make _ _

theorem stretch (r : Rate) (efficiency : Float) : Unrefused (r.stretch efficiency) :=
  Faults.ite (fun _ => Faults.ok _) fun _ => (div _ _).bind fun _ _ => make _ _

theorem raisedMultiplier (mult : Int) (needed ε : Float) :
    Unrefused (raisedMultiplier mult needed ε) :=
  (toDouble mult).bind fun _ _ => (divideDoubles _ _).bind fun _ _ =>
    (ceiling _).bind fun _ _ => Faults.ok _

/-! ## Recipes, streams and clocks -/

theorem flowOf (r : Recipe) (parts : List Part) (p : Product) : Unrefused (r.flowOf parts p) :=
  Faults.foldlM (fun _ _ _ => (times _ _).bind fun _ _ => add _ _) _

theorem inflowOf (r : Recipe) (p : Product) : Unrefused (r.inflowOf p) := flowOf _ _ _

theorem outflowOf (r : Recipe) (p : Product) : Unrefused (r.outflowOf p) := flowOf _ _ _

theorem scale (s : Stream) (mult : Int) : Unrefused (s.scale mult) :=
  Faults.ite (fun _ => Faults.error rfl) fun _ => Faults.ok _

theorem stream (a : Arena) (i : Nat) : Unrefused (a.stream i) := by
  unfold Arena.stream
  split
  · exact Faults.ok _
  · exact Faults.error rfl

theorem buffer (a : Arena) (i : Nat) (p : Product) : Unrefused (a.buffer i p) := by
  unfold Arena.buffer
  split
  · exact Faults.ok _
  · exact Faults.error rfl

theorem fromBoundary (period ticks : Int) : Unrefused (Clock.fromBoundary period ticks) :=
  Faults.ite (fun _ => Faults.ok _) fun _ => Faults.ite (fun _ => Faults.error rfl) fun _ => Faults.ok _

theorem clockAdvance (next period ticks : Int) : Unrefused (Clock.advance next period ticks) := by
  refine Faults.ite (fun _ => Faults.ok _) fun _ => Faults.ite (fun _ => fromBoundary _ _) fun _ => ?_
  refine Faults.ite (fun _ => Faults.ok _) fun _ => Faults.ite (fun _ => Faults.ok _) fun _ => ?_
  exact (fromBoundary _ _).map

/-! ## One stream, given the efficiency of the others -/

variable {g : Nat → Except Fault Float} {a : Arena}

theorem realizedBy {u : Nat} (hu : Unrefused (g u)) (p : Product) :
    Unrefused (Arena.realizedBy g a u p) := by
  refine (stream a u).bind fun s _ => (outflowOf s.recipe p).bind fun outflow _ => ?_
  refine Faults.ite (fun _ => Faults.ok _) fun _ => hu.bind fun _ _ => ?_
  exact (stretch _ _).bind fun _ _ => (times _ _).bind fun _ _ => Faults.ok _

theorem suppliedBy (hg : ∀ u, Unrefused (g u)) (i : Nat) (p : Product) :
    Unrefused (Arena.suppliedBy g a i p) := by
  refine (stream a i).bind fun s _ => Faults.foldlM (fun _ u _ => ?_) _
  refine (realizedBy (hg u) p).bind fun rate _ => ?_
  cases rate with
  | none => exact Faults.ok _
  | some rate => exact add _ _

theorem efficiencyBy (hg : ∀ u, Unrefused (g u)) (i : Nat) (s : Stream) :
    Unrefused (Arena.efficiencyBy g a i s) := by
  refine Faults.bind (Faults.mapM fun p _ => ?_) fun _ _ => Faults.ok _
  refine (inflowOf _ _).bind fun _ _ => (times _ _).bind fun _ _ => ?_
  refine Faults.ite (fun _ => Faults.ok _) fun _ => (suppliedBy hg i p).bind fun _ _ => ?_
  exact (ratio _ _).bind fun _ _ => Faults.ok _

end Unrefused

end Conveyor
