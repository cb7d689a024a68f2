-- SUMMARY: What one call does to one stream: its countdown goes on by the ticks of the call, and it completes no more cycles than it crosses boundaries.
import Conveyor.Proofs.Answering
import Conveyor.Proofs.Sustained

/-!
# Streams and the clock

A call comes to each stream once. Whatever the order of visits, whether the stream completes its cycles or
stalls, its countdown is then set by the clock, and only there. A call that is stopped on the way has come
to the stream or has not.
-/

namespace Conveyor

theorem StreamTick.made_eq_zero {i : Nat} {reports : List StreamTick} (h : ∀ r ∈ reports, r.index ≠ i) (p : Product) :
    made i p reports = 0 := by
  have hnone : reports.filter (·.index = i) = [] := List.filter_eq_nil_iff.2 fun r hr => by simpa using h r hr
  rw [made, hnone]
  rfl

namespace Arena

/-- Stream `i`, which was `s`, is the same but for its stock and has the given countdown. -/
def Stands (i : Nat) (s : Stream) (next : Option Int) (a : Arena) : Prop :=
  ∃ r, a.stream? i = some r ∧ s.Same r ∧ r.next = next

variable {a b : Arena} {i j : Nat} {s : Stream} {next : Option Int} {is : List Nat}
  {m ticks period crossed left : Int} {st : Logged Arena} {order : TickOrder}

theorem Stands.of_kept (h : Stands i s next a) (hkept : Kept is a b) (hi : i ∉ is) : Stands i s next b := by
  obtain ⟨r, hr, hsame, hnext⟩ := h
  obtain ⟨t, ht, hsame', hnext'⟩ := hkept.stream i r hr
  exact ⟨t, ht, hsame.trans hsame', (hnext' hi).trans hnext⟩

theorem Stands.of_same {r : Stream} (hsame : s.Same r) (h : Stands i r next a) : Stands i s next a := by
  obtain ⟨t, ht, hsame', hnext⟩ := h
  exact ⟨t, ht, hsame.trans hsame', hnext⟩

/-- The call comes to the stream. -/
theorem wp_advance_own (h : st.state.Ready) (hs : st.state.stream? i = some s)
    (hperiod : s.recipe.period = .ok period)
    (hclock : Clock.advance (s.next.getD period) period ticks = .ok (crossed, left)) :
    (advance i ticks m).wp
      (fun r t => (∃ k ≤ crossed.toNat, r = reportOf s i k) ∧ Kept [i] st.state t.state ∧
        Stands i s (some left) t.state)
      (fun _ t => Stands i s (some left) t.state) st := by
  obtain ⟨k, hk, b, hcycled, hkept⟩ := exists_cycled_of_bound (m := m) hs (h.bound i)
    (if s.recipe.isInert then 0 else crossed.toNat)
  have hle : k ≤ crossed.toNat := hk.trans (by split <;> omega)
  have hadvanced : Kept [i] st.state (b.withNext i left) := hkept.trans (Kept.withNext b i left)
  have hstands : Stands i s (some left) (b.withNext i left) := by
    obtain ⟨r, hr, hsame, _⟩ := hkept.stream i s hs
    exact ⟨_, stream?_withNext hr left, hsame.trans (Stream.setNext_same r left), rfl⟩
  refine (wp_advance hs hperiod hclock hcycled).weaken ?_ ?_
  · rintro _ t ⟨⟨hstate, _⟩, j, hj, rfl⟩
    obtain rfl := Except.ok.inj hj
    exact ⟨⟨k, hle, rfl⟩, hstate ▸ hadvanced, hstate ▸ hstands⟩
  · rintro f t ⟨⟨hstate, _⟩, _⟩
    exact hstate ▸ hstands

/-- It comes to other streams only. -/
theorem wp_mapM_others (h : st.state.Ready) (his : ∀ j ∈ is, j < st.state.size) (hi : i ∉ is)
    (hstands : Stands i s next st.state) :
    (is.mapM fun j => advance j ticks m).wp
      (fun reports t => (∀ p, StreamTick.made i p reports = 0) ∧ Kept is st.state t.state ∧
        Stands i s next t.state)
      (fun _ t => Stands i s next t.state) st := by
  have hstep (j : Nat) (hj : j ∈ is) (t : Logged Arena) (ht : Kept is st.state t.state) :
      (advance j ticks m).wp (fun r u => r.index = j ∧ Kept is st.state u.state)
        (fun _ u => Stands i s next u.state) t := by
    have hsub : [j] ⊆ is := List.cons_subset.2 ⟨hj, List.nil_subset is⟩
    refine (wp_advance_of_ready (h.of_kept ht) (ht.size.symm ▸ his j hj) ticks m).weaken ?_ ?_
    · exact fun r u hu => ⟨hu.1, ht.andThen hu.2.2 hsub⟩
    · exact fun f u hu => hstands.of_kept (ht.andThen hu.1.2 hsub) hi
  refine (Action.wp.mapM hstep (Kept.refl is st.state)).weaken (fun reports t ht => ?_) fun _ _ ht => ht
  refine ⟨StreamTick.made_eq_zero fun r hr => ?_, ht.2, hstands.of_kept ht.2 hi⟩
  obtain ⟨j, hj, hindex⟩ := Result.exists_of_forall₂ ht.1 hr
  exact fun heq => hi (heq ▸ hindex.symm ▸ hj)

/-- A whole call sets the countdown of the stream once, and reports no more cycles of it than it crosses
boundaries. If it is stopped, the countdown is as before or it is the one that the clock gives. -/
theorem wp_tick_of_stream (h : st.state.Ready) (hs : st.state.stream? i = some s)
    (hperiod : s.recipe.period = .ok period)
    (hclock : Clock.advance (s.next.getD period) period ticks = .ok (crossed, left)) :
    (tick ticks order m).wp
      (fun reports t => Stands i s (some left) t.state ∧ ∃ k ≤ crossed.toNat,
        ∀ p, StreamTick.made i p reports = k * (s.recipe.yieldOf p * s.mult))
      (fun _ t => Stands i s s.next t.state ∨ Stands i s (some left) t.state) st := by
  have hstart : Stands i s s.next st.state := ⟨s, hs, Stream.Same.refl s, rfl⟩
  refine Action.wp.bind_current (Action.wp.bind_lift (fun f _ => .inl hstart) fun is his => ?_)
  have hperm := visitOrder_perm his
  have hlt : ∀ j ∈ is, j < st.state.size := fun j hj => List.mem_range.1 (hperm.mem_iff.1 hj)
  have hnodup : is.Nodup := hperm.nodup_iff.2 List.nodup_range
  obtain ⟨before, after, rfl⟩ := List.append_of_mem
    (hperm.mem_iff.2 (List.mem_range.2 (List.getElem?_eq_some_iff.1 hs).1))
  obtain ⟨-, hafter, hdisjoint⟩ := List.nodup_append.1 hnodup
  have hibefore : i ∉ before := fun hi => hdisjoint i hi i List.mem_cons_self rfl
  have hiafter : i ∉ after := (List.nodup_cons.1 hafter).1
  rw [List.mapM_append]
  refine Action.wp.bind ((wp_mapM_others h (fun j hj => hlt j (List.mem_append_left _ hj)) hibefore
    hstart).weaken ?_ fun _ _ ht => .inl ht)
  rintro reports t ⟨hmade, hkept, r, hr, hsame, hnext⟩
  rw [List.mapM_cons]
  have hready := h.of_kept hkept
  rw [← hnext] at hclock
  rw [← hsame.recipe] at hperiod
  refine Action.wp.bind (Action.wp.bind ((wp_advance_own hready hr hperiod hclock).weaken ?_ fun _ _ ht =>
    .inr (ht.of_same hsame)))
  rintro report u ⟨⟨k, hk, rfl⟩, hkept', hstands⟩
  have hlater (j : Nat) (hj : j ∈ after) : j < u.state.size := by
    rw [hkept'.size, hkept.size]
    exact hlt j (List.mem_append_right _ (List.mem_cons_of_mem i hj))
  refine Action.wp.bind ((wp_mapM_others (hready.of_kept hkept') hlater hiafter hstands).weaken ?_
    fun _ _ ht => .inr (ht.of_same hsame))
  rintro rest v ⟨hmade', _, hstands'⟩
  refine ⟨hstands'.of_same hsame, k, hk, fun p => ?_⟩
  rw [StreamTick.made_append, ← List.singleton_append, StreamTick.made_append, hmade, hmade',
    StreamTick.made_reportOf, if_pos rfl, hsame.recipe, hsame.mult]
  omega

end Arena

end Conveyor
