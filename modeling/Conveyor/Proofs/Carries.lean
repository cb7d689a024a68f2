-- SUMMARY: What becomes of the streams that are there, whatever is added, run, stocked or raised meanwhile.
import Conveyor.Proofs.Balancing
import Conveyor.Proofs.Simulation

/-!
# Streams that last

Streams are added at the end and only the latest are ever dropped, so a stream that is there keeps its
index. What it keeps of itself depends on what happens: stock moves at any time, the countdown is set when
time passes, and the multiplier goes up when a supply chain is balanced. A relation that admits the change
of each kind holds between a stream and all that becomes of it.
-/

namespace Conveyor

/-- A relation between a stream and what becomes of it, whatever its stock does. -/
structure Stream.Lasting (R : Stream → Stream → Prop) : Prop where
  refl : ∀ s, R s s
  trans : ∀ s t u, R s t → R t u → R s u
  buffers : ∀ s buffers, R s { s with buffers }

namespace Arena

/-- Every stream of the earlier arena has become one of the later, at the same index. -/
def Carries (R : Stream → Stream → Prop) (a b : Arena) : Prop :=
  ∀ i s, a.stream? i = some s → ∃ t, b.stream? i = some t ∧ R s t

namespace Carries

variable {R : Stream → Stream → Prop} {a b : Arena} {i : Nat} {m : Int}

theorem refl (hR : Stream.Lasting R) (a : Arena) : a.Carries R a := fun _ s hs => ⟨s, hs, hR.refl s⟩

theorem modify (hR : Stream.Lasting R) (h : a.Carries R b) {f : Stream → Stream}
    (hf : ∀ s, b.stream? i = some s → R s (f s)) : a.Carries R (b.modify i f) := by
  intro j s hs
  obtain ⟨t, ht, hst⟩ := h j s hs
  rw [stream?_modify, ht]
  split
  · subst j
    exact ⟨f t, rfl, hR.trans s t (f t) hst (hf t ht)⟩
  · exact ⟨t, rfl, hst⟩

theorem append (h : a.Carries R b) (s : Stream) : a.Carries R ⟨b.streams ++ [s]⟩ := by
  intro i r hr
  obtain ⟨t, ht, hrt⟩ := h i r hr
  exact ⟨t, (List.getElem?_append_left (List.getElem?_eq_some_iff.1 ht).1).trans ht, hrt⟩

theorem truncate (h : a.Carries R b) {n : Nat} (hn : a.size ≤ n) : a.Carries R (b.truncate n) := by
  intro i s hs
  rw [stream?_truncate, if_pos (Nat.lt_of_lt_of_le (List.getElem?_eq_some_iff.1 hs).1 hn)]
  exact h i s hs

theorem size_le (h : a.Carries R b) : a.size ≤ b.size := by
  by_contra hlt
  obtain ⟨t, ht, -⟩ := h b.size _ (List.getElem?_eq_getElem (Nat.not_le.1 hlt))
  exact Nat.lt_irrefl _ (List.getElem?_eq_some_iff.1 ht).1

/-! ## Changes -/

theorem openInput (hR : Stream.Lasting R) (h : a.Carries R b) (p : Product) :
    a.Carries R (b.openInput i p m) := by
  refine h.modify hR fun s _ => ?_
  unfold Stream.openInput
  split
  · exact hR.refl s
  · exact hR.buffers s _

theorem transfer (hR : Stream.Lasting R) (h : a.Carries R b) (u : Nat) (p : Product) :
    a.Carries R (b.transfer i u p) := by
  unfold Arena.transfer
  split
  · exact (h.modify hR fun s _ => hR.buffers s _).modify hR fun s _ => hR.buffers s _
  · exact h

/-- Passing time sets countdowns. -/
theorem closedUnderTime (hR : Stream.Lasting R) (hnext : ∀ s n, R s { s with next := some n }) :
    ClosedUnderTime m (a.Carries R) where
  openInput _ hb _ p := hb.openInput hR p
  transfer _ _ _ _ _ _ _ _ hb := hb.transfer hR _ _
  produce b hb i s s' hs hproduce := by
    refine hb.modify hR fun r hr => ?_
    obtain rfl := Option.some.inj (hs.symm.trans hr)
    rw [Stream.eq_of_produce? hproduce]
    exact hR.buffers s _
  setNext _ hb _ n := hb.modify hR fun s _ => hnext s n

/-- Balancing raises multipliers. -/
theorem closedUnderRaise (hR : Stream.Lasting R) (hmult : ∀ s n, s.mult ≤ n → R s { s with mult := n }) :
    Balancing.ClosedUnderRaise (fun _ => True) (fun _ => True) fun b => a.Carries R b.arena where
  visits _ _ := trivial
  suppliers _ _ _ _ _ _ := trivial
  raise b hb u s s' n _ hs _ hn hscale := by
    refine hb.modify hR fun r hr => ?_
    obtain rfl := Option.some.inj (hs.symm.trans hr)
    rw [Stream.scale_eq_ok hscale]
    exact hR.trans s _ _ (hmult s n (Int.le_of_lt hn)) (hR.buffers _ _)

end Carries

end Arena

end Conveyor
