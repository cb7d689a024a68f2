-- SUMMARY: Queries about a stream see the recipes, the bindings and the multipliers upstream of it, and nothing else.
import Conveyor.Proofs.Carries
import Conveyor.Proofs.Nesting
import Conveyor.Proofs.Order

/-!
# What queries see

A query for an efficiency follows bindings to suppliers and reads recipes and multipliers on the way. It is
answered alike, or fails alike, on any two arenas that have the same there: stock and countdowns do not
matter, and neither do the streams that are not upstream, be they on a cycle or not. So an efficiency
changes only when a multiplier upstream does.
-/

namespace Conveyor

/-- Queries see no difference between the streams: they differ in stock and countdown at most. -/
structure Stream.Alike (s t : Stream) : Prop where
  recipe : t.recipe = s.recipe
  inputs : t.inputs = s.inputs
  mult : t.mult = s.mult

theorem Stream.alike_lasting : Stream.Lasting Stream.Alike where
  refl _ := ⟨rfl, rfl, rfl⟩
  trans _ _ _ h h' := ⟨h'.recipe.trans h.recipe, h'.inputs.trans h.inputs, h'.mult.trans h.mult⟩
  buffers _ _ := ⟨rfl, rfl, rfl⟩

namespace Arena

/-- At the index queries see no difference between the arenas: both have a stream there or neither. -/
def AlikeAt (a b : Arena) (i : Nat) : Prop := Option.Rel Stream.Alike (a.stream? i) (b.stream? i)

/-- Nor do they see one at stream `i` and upstream of it. -/
def AlikeUpTo (a b : Arena) (i : Nat) : Prop := ∀ j, Relation.ReflTransGen a.Supplies j i → a.AlikeAt b j

/-- Nor do they see one anywhere. -/
def Alike (a b : Arena) : Prop := ∀ i, a.AlikeAt b i

/-- All queries about stream `i` are answered alike, or fail alike. -/
def AnswersAlike (a b : Arena) (i : Nat) : Prop :=
  a.efficiency i = b.efficiency i ∧
    ∀ p, a.rateOf i p = b.rateOf i p ∧ a.suppliedRate i p = b.suppliedRate i p

variable {a b : Arena} {i : Nat} {path : List Nat} {p : Product} {f g : Nat → Query Float} {α : Type}

theorem AlikeUpTo.at (h : a.AlikeUpTo b i) : a.AlikeAt b i := h i .refl

theorem AlikeUpTo.supplier (h : a.AlikeUpTo b i) {u : Nat} (hu : a.Supplies u i) : a.AlikeUpTo b u :=
  fun j hj => h j (hj.tail hu)

/-! ## Formulas -/

namespace AlikeAt

theorem refl (a : Arena) (i : Nat) : a.AlikeAt a i := by
  unfold AlikeAt
  cases a.stream? i with
  | none => exact .none
  | some s => exact .some (Stream.alike_lasting.refl s)

/-- What queries make of the stream is the same if it is the same for streams that are alike. -/
theorem bind_stream (h : a.AlikeAt b i) {k l : Stream → Query α}
    (hk : ∀ s t, a.stream? i = some s → s.Alike t → k s = l t) :
    (liftM (a.stream i) >>= k) = (liftM (b.stream i) >>= l) := by
  unfold AlikeAt at h
  unfold stream
  cases hs : a.stream? i with
  | none =>
    rw [hs] at h
    cases hb : b.stream? i with
    | none => rfl
    | some t => rw [hb] at h; cases h
  | some s =>
    rw [hs] at h
    cases hb : b.stream? i with
    | none => rw [hb] at h; cases h
    | some t =>
      rw [hb] at h
      cases h with
      | some hst => exact hk s t hs hst

theorem realizedBy_eq (h : a.AlikeAt b i) (hfg : f i = g i) : realizedBy f a i p = realizedBy g b i p := by
  refine h.bind_stream fun s t _ hst => ?_
  rw [hst.recipe, hst.mult, hfg]

theorem suppliedBy_eq (h : a.AlikeAt b i) (hfg : ∀ u, a.Supplies u i → a.AlikeAt b u ∧ f u = g u) :
    suppliedBy f a i p = suppliedBy g b i p := by
  refine h.bind_stream fun s t hs hst => ?_
  have hsuppliers : t.suppliers = s.suppliers := congrArg (fun slots => (slots.map Slot.supplier).eraseDups) hst.inputs
  have hrealized : ∀ u ∈ s.suppliers, realizedBy f a u p = realizedBy g b u p := fun u hu =>
    (hfg u (supplies_of_mem hs hu)).1.realizedBy_eq (hfg u (supplies_of_mem hs hu)).2
  rw [hsuppliers]
  generalize Rate.zero = total, s.suppliers = us at hrealized
  induction us generalizing total with
  | nil => rfl
  | cons u us ih =>
    obtain ⟨hu, hus⟩ := List.forall_mem_cons.1 hrealized
    rw [List.foldlM_cons, List.foldlM_cons, hu]
    exact bind_congr fun total => ih total hus

theorem efficiencyBy_eq (h : a.AlikeAt b i) (hfg : ∀ u, a.Supplies u i → a.AlikeAt b u ∧ f u = g u) {s t : Stream}
    (hst : s.Alike t) : efficiencyBy f a i s = efficiencyBy g b i t := by
  have hratio : ratioBy f a i s = ratioBy g b i t := by
    funext p
    unfold ratioBy
    rw [hst.recipe, hst.mult, h.suppliedBy_eq hfg]
  rw [efficiencyBy, efficiencyBy, hst.recipe, hratio]

/-- A query comes to the stream alike if it is evaluated alike, which it is only if it is not on the path. -/
theorem settling_eq (h : a.AlikeAt b i) {evaluate evaluate' : Stream → Query Float}
    (heval : ∀ s t, i ∉ path → a.stream? i = some s → s.Alike t → evaluate s = evaluate' t) :
    settling a path i evaluate = settling b path i evaluate' := by
  unfold settling
  refine bind_congr fun cache => ?_
  cases cache.lookup i with
  | some e => rfl
  | none =>
    simp only
    split
    · rfl
    next hnew => exact h.bind_stream fun s t hs hst => heval s t hnew hs hst

end AlikeAt

/-! ## Queries -/

/-- Whatever the path and whatever is settled, a query about the stream does the same on both arenas. -/
theorem AlikeUpTo.settledEfficiency_eq (h : a.AlikeUpTo b i) :
    settledEfficiency a path i = settledEfficiency b path i := by
  induction hr : Path.remaining a.size path using Nat.strong_induction_on generalizing path i with
  | _ r ih =>
  subst hr
  rw [Arena.settledEfficiency_eq, Arena.settledEfficiency_eq]
  refine h.at.settling_eq fun s t hnew hs hst => ?_
  have hlt : i < a.size := (List.getElem?_eq_some_iff.1 hs).1
  have hsuppliers (u : Nat) (hu : a.Supplies u i) : a.AlikeAt b u ∧
      settledEfficiency a (i :: path) u = settledEfficiency b (i :: path) u :=
    ⟨(h.supplier hu).at, ih _ (Path.remaining_cons_lt hlt hnew) (h.supplier hu) rfl⟩
  have hleaf : t.isLeaf = s.isLeaf := congrArg List.isEmpty hst.inputs
  rw [hleaf, h.at.efficiencyBy_eq hsuppliers hst]

theorem AlikeUpTo.answersAlike (h : a.AlikeUpTo b i) : a.AnswersAlike b i := by
  refine ⟨?_, fun p => ⟨?_, ?_⟩⟩
  · rw [efficiency, efficiency, h.settledEfficiency_eq]
  · rw [rateOf, rateOf, h.at.realizedBy_eq h.settledEfficiency_eq]
  · have hsuppliers (u : Nat) (hu : a.Supplies u i) :
        a.AlikeAt b u ∧ settledEfficiency a [] u = settledEfficiency b [] u :=
      ⟨(h.supplier hu).at, (h.supplier hu).settledEfficiency_eq⟩
    rw [suppliedRate, suppliedRate, h.at.suppliedBy_eq hsuppliers]

/-! ## Changes that queries do not see -/

/-- Where the streams that are bound are there, those that come later do not matter. -/
theorem Carries.answersAlike (h : a.Carries Stream.Alike b) (hbound : ∀ i, a.SlotsBound i) (hi : i < a.size) :
    a.AnswersAlike b i := by
  refine AlikeUpTo.answersAlike fun j hj => ?_
  have hlt : j < a.size := by
    rcases Relation.ReflTransGen.cases_head hj with rfl | ⟨k, hsupplies, -⟩
    · exact hi
    · exact hsupplies.lt_size_of_bound (hbound k)
  obtain ⟨t, ht, hst⟩ := h j _ (List.getElem?_eq_getElem hlt)
  rw [AlikeAt, ht, show a.stream? j = some _ from List.getElem?_eq_getElem hlt]
  exact .some hst

theorem Alike.answersAlike (h : a.Alike b) (i : Nat) : a.AnswersAlike b i := AlikeUpTo.answersAlike fun j _ => h j

theorem Alike.trans {c : Arena} (h : a.Alike b) (h' : b.Alike c) : a.Alike c := by
  intro i
  have hab := h i
  have hbc := h' i
  unfold AlikeAt at *
  revert hab hbc
  cases a.stream? i with
  | none =>
    cases b.stream? i with
    | none => exact fun _ hbc => hbc
    | some t => exact fun hab => nomatch hab
  | some s =>
    cases b.stream? i with
    | none => exact fun hab => nomatch hab
    | some t =>
      cases c.stream? i with
      | none => exact fun _ hbc => nomatch hbc
      | some u =>
        rintro ⟨hab⟩ ⟨hbc⟩
        exact .some (Stream.alike_lasting.trans s t u hab hbc)

/-- A stream of the first arena is one of the second. -/
theorem Alike.exists_stream (h : a.Alike b) {s : Stream} (hs : a.stream? i = some s) :
    ∃ t, b.stream? i = some t ∧ s.Alike t := by
  have hat := h i
  rw [AlikeAt, hs] at hat
  cases hb : b.stream? i with
  | none => rw [hb] at hat; cases hat
  | some t =>
    rw [hb] at hat
    cases hat with
    | some hst => exact ⟨t, rfl, hst⟩

theorem Alike.symm (h : a.Alike b) : b.Alike a := by
  intro i
  have hab := h i
  unfold AlikeAt at *
  revert hab
  cases a.stream? i with
  | none =>
    cases b.stream? i with
    | none => exact fun _ => .none
    | some t => exact fun hab => nomatch hab
  | some s =>
    cases b.stream? i with
    | none => exact fun hab => nomatch hab
    | some t =>
      rintro ⟨hst⟩
      exact .some ⟨hst.recipe.symm, hst.inputs.symm, hst.mult.symm⟩

theorem Alike.size_eq (h : a.Alike b) : b.size = a.size := by
  refine Nat.le_antisymm (Nat.le_of_not_lt fun hlt => ?_) (Nat.le_of_not_lt fun hlt => ?_)
  · obtain ⟨s, hs, _⟩ := h.symm.exists_stream (List.getElem?_eq_getElem hlt)
    exact Nat.lt_irrefl _ (List.getElem?_eq_some_iff.1 hs).1
  · obtain ⟨t, ht, _⟩ := h.exists_stream (List.getElem?_eq_getElem hlt)
    exact Nat.lt_irrefl _ (List.getElem?_eq_some_iff.1 ht).1

theorem Alike.forall₂ (h : a.Alike b) : List.Forall₂ Stream.Alike a.streams b.streams := by
  refine List.forall₂_iff_get.2 ⟨h.size_eq.symm, fun i hi hj => ?_⟩
  obtain ⟨t, ht, hst⟩ := h.exists_stream (List.getElem?_eq_getElem hi)
  obtain rfl := Option.some.inj (ht.symm.trans (List.getElem?_eq_getElem hj))
  exact hst

/-- Where no stream has been added either, nothing matters. -/
theorem Carries.alike_of_size_eq (h : a.Carries Stream.Alike b) (hsize : b.size = a.size) : a.Alike b := by
  intro i
  unfold AlikeAt
  cases ht : b.stream? i with
  | none =>
    cases hs : a.stream? i with
    | none => exact .none
    | some s =>
      obtain ⟨t, ht', -⟩ := h i s hs
      rw [ht] at ht'
      cases ht'
  | some t =>
    obtain ⟨s, hs⟩ := exists_stream?_of_size_eq hsize ht
    obtain ⟨t', ht', hst⟩ := h i s hs
    obtain rfl := Option.some.inj (ht.symm.trans ht')
    rw [hs]
    exact .some hst

/-- Queries do not see that time has passed. -/
theorem answersAlike_tick (ticks : Int) (order : TickOrder) (m : Int) (st : Logged Arena) (i : Nat) :
    st.state.AnswersAlike ((tick ticks order m).after st).state i := by
  have hcarries := (Carries.closedUnderTime (a := st.state) (m := m) Stream.alike_lasting
    fun _ _ => ⟨rfl, rfl, rfl⟩).keeps_tick ticks order
  have hraised := (raised_closedUnderTime st.state m).keeps_tick ticks order
  exact ((hcarries.after (.refl Stream.alike_lasting _)).alike_of_size_eq (hraised.after (Raised.refl _)).size).answersAlike i

/-- What has been raised is on the list of changes. -/
theorem alikeUnlessChanged_closedUnderRaise (a : Arena) :
    Balancing.ClosedUnderRaise (fun _ => True) (fun _ => True) fun b =>
      ∀ j, (∀ c ∈ b.changes, c.stream ≠ j) → a.AlikeAt b.arena j where
  visits _ _ := trivial
  suppliers _ _ _ _ _ _ := trivial
  raise b hb u s s' n _ hs _ _ _ j hj := by
    obtain ⟨hold, hnew⟩ := List.forall_mem_append.1 hj
    have hne : u ≠ j := hnew _ (List.mem_singleton_self _)
    have hkept : (b.afterRaise u s s').arena.stream? j = b.arena.stream? j :=
      (stream?_modify ..).trans (if_neg hne)
    rw [AlikeAt, hkept]
    exact hb j hold

/-- Balancing changes the answers about a stream only if it raises the stream itself or one upstream of it. -/
theorem answersAlike_solve {ε : Float} {st t : Logged Arena} {changes : List Change} {target : Nat}
    (h : solve target ε st = .ok changes t)
    (hi : ∀ c ∈ changes, ¬ Relation.ReflTransGen st.state.Supplies c.stream i) :
    st.state.AnswersAlike t.state i := by
  have hsolve := triple_solve (alikeUnlessChanged_closedUnderRaise st.state) (i := target) trivial ε st
    fun j _ => AlikeAt.refl st.state j
  rw [h] at hsolve
  exact AlikeUpTo.answersAlike fun j hj => hsolve j fun c hc hcj => hi c hc (hcj ▸ hj)

end Arena

end Conveyor
