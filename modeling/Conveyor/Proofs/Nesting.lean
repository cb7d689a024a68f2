-- SUMMARY: Queries and balancing come to an end on every arena: no more calls are nested than there are streams.
import Conveyor.Proofs.Balancing
import Conveyor.Proofs.Efficiency.Formula
import Conveyor.Proofs.InStep

/-!
# Nested calls

The two recursions are written down a second time, without a measure that would say why they end: a
counter is taken down by every efficiency that is evaluated, or every stream that is balanced, inside
another one, and where it has run out the call is cut off. What stands for the call that is cut off
makes no difference if the counter starts at the number of streams, so no call is cut off then. A stream
is never evaluated inside its own evaluation, whatever the bindings are, and at most all are under way.
-/

namespace Conveyor

namespace Arena

variable {a : Arena} {path : List Nat} {i : Nat}

/-! ## Queries -/

/-- What a query does with stream `i` that it has come to along `path`: it answers what it remembers,
refuses a stream on its path, and has any other stream evaluated. -/
def settling (a : Arena) (path : List Nat) (i : Nat) (evaluate : Stream → Query Float) : Query Float := do
  match (← get).lookup i with
  | some e => return e
  | none =>
    if i ∈ path then Refusal.fail (.suppliesItself i)
    else
      let s ← a.stream i
      evaluate s

/-- The efficiency of stream `i`, by evaluations that nest at most `depth` deep: the one below that is
`cut`. -/
def efficiencyWithin (cut : Query Float) (a : Arena) : Nat → List Nat → Nat → Query Float
  | 0, path, i => settling a path i fun _ => cut
  | depth + 1, path, i => settling a path i fun s => do
    if s.isLeaf then return 1.0
    let e ← efficiencyBy (efficiencyWithin cut a depth (i :: path)) a i s
    set ((i, e) :: (← get))
    return e

theorem settledEfficiency_eq (a : Arena) (path : List Nat) (i : Nat) :
    settledEfficiency a path i = settling a path i fun s => do
      if s.isLeaf then return 1.0
      let e ← efficiencyBy (settledEfficiency a (i :: path)) a i s
      set ((i, e) :: (← get))
      return e := by
  rw [settledEfficiency, settling]
  refine bind_congr fun cache => ?_
  cases cache.lookup i with
  | some e => rfl
  | none =>
    simp only
    split
    · rfl
    · split
      next hlt => rw [stream_of_eq_some (a := a) (List.getElem?_eq_getElem hlt)]; rfl
      next hle => rw [stream, show a.stream? i = none from List.getElem?_eq_none (Nat.not_lt.1 hle)]; rfl

/-- Only streams of the arena that are not on the path are evaluated. -/
theorem settling_congr {evaluate evaluate' : Stream → Query Float}
    (h : i ∉ path → i < a.size → evaluate = evaluate') :
    settling a path i evaluate = settling a path i evaluate' := by
  unfold settling
  refine bind_congr fun cache => ?_
  cases cache.lookup i with
  | some e => rfl
  | none =>
    simp only
    split
    · rfl
    next hnew =>
      cases hs : a.stream? i with
      | none =>
        rw [stream, hs]
        rfl
      | some s => rw [h hnew (List.getElem?_eq_some_iff.1 hs).1]

/-- With as many evaluations left as streams are not on the path, none is cut off. -/
theorem efficiencyWithin_eq (cut : Query Float) {depth : Nat} (hdepth : Path.remaining a.size path ≤ depth) :
    efficiencyWithin cut a depth path = settledEfficiency a path := by
  induction depth generalizing path with
  | zero =>
    funext i
    rw [settledEfficiency_eq, efficiencyWithin]
    refine settling_congr fun hnew hlt => ?_
    have := Path.remaining_cons_lt hlt hnew
    omega
  | succ depth ih =>
    funext i
    rw [settledEfficiency_eq, efficiencyWithin]
    refine settling_congr fun hnew hlt => ?_
    have hless : Path.remaining a.size (i :: path) ≤ depth := by
      have := Path.remaining_cons_lt hlt hnew
      omega
    rw [ih hless]

end Arena

/-! ## Balancing -/

namespace Balancing

/-- What balancing does with stream `i` that it has come to along `path`: it refuses a stream on its
path, leaves one alone that is efficient enough, and walks the suppliers of any other. -/
def unlessEfficient (ε : Float) (path : List Nat) (i : Nat) (walk : Stream → Action Balancing Unit) :
    Action Balancing Unit := do
  if i ∈ path then Refusal.fail (.suppliesItself i)
  else
    let efficiency ← query (·.efficiency i)
    if 1.0 - ε ≤ efficiency then return
    let s ← query (·.stream i)
    walk s

/-- Walk the suppliers of stream `r`, at index `i`, and balance by `balance` those that need it. -/
def walkSuppliers (balance : Nat → Action Balancing Unit) (ε : Float) (i : Nat) (r : Stream) :
    Action Balancing Unit := do
  let pending ← r.inputs.foldlM (slot balance ε i) ∅
  pending.entries.forM fun (u, mult) => do
    if (← scale u mult) then balance u

/-- Balance stream `i`, by walks that nest at most `depth` deep: the one below that is `cut`. -/
def balanceWithin (cut : Action Balancing Unit) (ε : Float) : Nat → List Nat → Nat → Action Balancing Unit
  | 0, path, i => unlessEfficient ε path i fun _ => cut
  | depth + 1, path, i =>
    unlessEfficient ε path i (walkSuppliers (balanceWithin cut ε depth (i :: path)) ε i)

/-- Two balancings that are the same so far, in an arena of `n` streams. -/
def Same (n : Nat) (s t : Logged Balancing) : Prop := s = t ∧ s.state.arena.size = n

variable {n i : Nat} {ε : Float} {path : List Nat} {s t : Logged Balancing}

theorem Same.bind_query {α β : Type} (h : Same n s t) {f : Arena → Except Fault β}
    {k k' : β → Action Balancing α}
    (hk : ∀ x, f s.state.arena = .ok x → Action.InStep (Same n) (k x) (k' x) s t) :
    Action.InStep (Same n) (query f >>= k) (query f >>= k') s t := by
  obtain ⟨rfl, hsize⟩ := h
  exact Action.InStep.bind_lift ⟨rfl, hsize⟩ hk

theorem coupled_report (e : Event) : Action.Coupled (Same n) (Action.report e) (Action.report e) := by
  rintro s _ ⟨rfl, hsize⟩
  have hkeeps : Action.Keeps (fun b : Balancing => b.arena.size = n) (Action.report e) := Action.Keeps.report
  exact ⟨rfl, rfl, hkeeps.after hsize⟩

theorem coupled_scale (u : Nat) (new : Int) : Action.Coupled (Same n) (scale u new) (scale u new) := by
  rintro s _ ⟨rfl, hsize⟩
  refine Action.InStep.bind_current (Action.InStep.bind_lift ⟨rfl, hsize⟩ fun r _ => ?_)
  refine Action.InStep.ite (fun _ => Action.InStep.pure _ ⟨rfl, hsize⟩) fun _ => ?_
  refine Action.InStep.bind_lift ⟨rfl, hsize⟩ fun r' _ => Action.InStep.bind_assign ?_
  refine (coupled_report _ _ _ ⟨rfl, ?_⟩).bind fun _ _ _ h => Action.InStep.pure _ h
  exact (Arena.size_modify _ _ _).trans hsize

/-- Slots call for balancing in the same way, however it is done. -/
theorem coupled_slot {balance balance' : Nat → Action Balancing Unit} {slot : Slot}
    (h : Action.Coupled (Same n) (balance slot.supplier) (balance' slot.supplier)) (pending : Pending) :
    Action.Coupled (Same n) (Balancing.slot balance ε i pending slot)
      (Balancing.slot balance' ε i pending slot) := by
  intro s t hst
  rw [slot_eq, slot_eq]
  refine hst.bind_query fun ask _ => ?_
  cases ask with
  | nothing => exact Action.InStep.pure pending hst
  | unsupplied => exact (coupled_report _ s t hst).bind fun _ _ _ hst => Action.InStep.pure pending hst
  | copies mult => exact Action.InStep.pure _ hst
  | balance => exact (h s t hst).bind fun _ _ _ hst => Action.InStep.pure pending hst

theorem coupled_walkSuppliers {balance balance' : Nat → Action Balancing Unit}
    (h : ∀ u, Action.Coupled (Same n) (balance u) (balance' u)) (r : Stream) :
    Action.Coupled (Same n) (walkSuppliers balance ε i r) (walkSuppliers balance' ε i r) := by
  intro s t hst
  refine Action.InStep.bind (Action.InStep.foldlM (fun pending slot _ => coupled_slot (h slot.supplier) pending)
    ∅ hst) fun pending s t hst => ?_
  refine Action.InStep.forM (fun raise _ s t hst => ?_) hst
  refine (coupled_scale raise.1 raise.2 s t hst).bind fun made s t hst => ?_
  exact Action.InStep.ite (fun _ => h raise.1 s t hst) fun _ => Action.InStep.pure () hst

/-- Only streams of the arena that are not on the path have their suppliers walked. -/
theorem coupled_unlessEfficient {walk : Stream → Action Balancing Unit}
    (h : i ∉ path → i < n → ∀ r, Action.Coupled (Same n) (walk r) (walkSuppliers (balance ε n (i :: path)) ε i r)) :
    Action.Coupled (Same n) (unlessEfficient ε path i walk) (balance ε n path i) := by
  intro s t hst
  rw [unlessEfficient, balance]
  split
  · exact Action.InStep.lift _ hst
  next hnew =>
  refine hst.bind_query fun efficiency hefficiency => ?_
  refine Action.InStep.ite (fun _ => Action.InStep.pure () hst) fun _ => ?_
  have hlt : i < n := by
    refine Nat.lt_of_not_le fun hle => ?_
    have hnone : s.state.arena.stream? i = none :=
      List.getElem?_eq_none (show s.state.arena.size ≤ i from hst.2 ▸ hle)
    rw [Arena.efficiency_of_none hnone] at hefficiency
    cases hefficiency
  rw [dif_pos hlt]
  exact hst.bind_query fun r _ => h hnew hlt r s t hst

/-- With as many walks left as streams are not on the path, none is cut off. -/
theorem coupled_balanceWithin (cut : Action Balancing Unit) {depth : Nat}
    (hdepth : Path.remaining n path ≤ depth) (i : Nat) :
    Action.Coupled (Same n) (balanceWithin cut ε depth path i) (balance ε n path i) := by
  induction depth generalizing path i with
  | zero =>
    refine coupled_unlessEfficient fun hnew hlt => ?_
    have := Path.remaining_cons_lt hlt hnew
    omega
  | succ depth ih =>
    refine coupled_unlessEfficient fun hnew hlt => ?_
    have hless : Path.remaining n (i :: path) ≤ depth := by
      have := Path.remaining_cons_lt hlt hnew
      omega
    exact coupled_walkSuppliers (ih hless)

end Balancing

namespace Arena

/-- Balancing as a whole, by walks that nest at most `depth` deep: the one below that is `cut`. -/
def solveWithin (cut : Action Balancing Unit) (depth i : Nat) (ε : Float) : Action Arena (List Change) :=
  Action.focus (⟨·, []⟩) (fun b _ => b.arena) do
    Balancing.balanceWithin cut ε depth [] i
    return (← Action.current).changes

/-- In an arena of `n` streams, whatever their bindings are, no more than `n` evaluations of efficiencies
and no more than `n` walks of suppliers are under way at once: with a counter of `n` the recursions give
what they give without one, so each of them comes to its end, at a value or at a fault, before anything
is cut off. -/
theorem calls_nest_within_size (st : Logged Arena) (i : Nat) :
    (∀ cut, (efficiencyWithin cut st.state st.state.size [] i).run' [] = st.state.efficiency i ∧
      ∀ p, (realizedBy (efficiencyWithin cut st.state st.state.size []) st.state i p).run' [] =
          st.state.rateOf i p ∧
        (suppliedBy (efficiencyWithin cut st.state st.state.size []) st.state i p).run' [] =
          st.state.suppliedRate i p) ∧
    ∀ cut ε, solveWithin cut st.state.size i ε st = solve i ε st := by
  refine ⟨fun cut => ?_, fun cut ε => ?_⟩
  · rw [efficiencyWithin_eq cut (Path.remaining_le _ [])]
    exact ⟨rfl, fun p => ⟨rfl, rfl⟩⟩
  · let b : Logged Balancing := { st with state := ⟨st.state, []⟩ }
    have hstep : Action.InStep (Balancing.Same st.state.size)
        (do Balancing.balanceWithin cut ε st.state.size [] i; return (← Action.current).changes)
        (do Balancing.balance ε st.state.size [] i; return (← Action.current).changes) b b := by
      refine (Balancing.coupled_balanceWithin cut (Path.remaining_le _ []) i b b ⟨rfl, rfl⟩).bind fun _ s t hst => ?_
      obtain ⟨rfl, hsize⟩ := hst
      exact Action.InStep.bind_current (Action.InStep.pure _ ⟨rfl, hsize⟩)
    unfold solveWithin solve Action.focus
    rw [Action.eq_of_outcome_of_after hstep.1 hstep.2.1]
    rfl

end Arena

end Conveyor
