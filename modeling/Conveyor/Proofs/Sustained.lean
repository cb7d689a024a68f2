-- SUMMARY: A stream runs without a pause if leaves of its own yield as fast as it needs: what every tick of an arena keeps.
import Conveyor.Proofs.Acyclic
import Conveyor.Proofs.Leaves

/-!
# Sustained throughput

A stream whose suppliers yield as fast as it needs has enough at every boundary, once each of them has
completed a first cycle, provided that it comes often enough: a supplier's buffer holds a few cycles only,
and what the supplier could have made beyond them is lost. Other streams do not matter, as long as none
of them draws from these buffers.
-/

namespace Conveyor

namespace StreamTick

/-- Units of a product that stream `i` has made, by some reports. -/
def made (i : Nat) (p : Product) (reports : List StreamTick) : Int :=
  ((reports.filter (·.index = i)).map (·.produced.getD p 0)).sum

theorem made_append (i : Nat) (p : Product) (reports reports' : List StreamTick) :
    made i p (reports ++ reports') = made i p reports + made i p reports' := by
  simp only [made, List.filter_append, List.map_append, List.sum_append]

theorem made_reportOf (i : Nat) (p : Product) (s : Stream) (v j : Nat) :
    made i p [Arena.reportOf s v j] = if v = i then j * (s.recipe.yieldOf p * s.mult) else 0 := by
  have hunits : (Arena.reportOf s v j).produced.getD p 0 = j * (s.recipe.yieldOf p * s.mult) := by
    simp only [Arena.reportOf, Table.getD, Table.get?_mapValues, Recipe.yieldOf]
    cases s.recipe.outputTotals.get? p <;> simp
  unfold made
  split
  next hv => simp [Arena.reportOf, hv, ← hunits]
  next hv => simp [Arena.reportOf, hv]

end StreamTick

namespace Arena

/-- Where an arena that was `a₀` at first stands when its streams have ticked so often and `x` has
completed `c` cycles. -/
structure Sustains (m k lead : Nat) (a₀ : Arena) (x : Placed) (source : Product → Placed)
    (age : Nat → Nat) (c : Nat) (a : Arena) : Prop where
  kept : ∃ is, Kept is a₀ a
  aged : Aged age a
  stocks : Stocks m x source age c a
  ahead : min k (age x.index / x.period - lead) ≤ c

namespace Sustains

variable {m k lead c j : Nat} {a₀ a b : Arena} {x y : Placed} {source : Product → Placed} {age : Nat → Nat}
  {p : Product} {v : Nat} {s : Stream}

/-- The streams of the arena are those that it had at first. -/
theorem stream_of (h : Sustains m k lead a₀ x source age c a) (hs : a.stream? v = some s) :
    ∃ r, a₀.stream? v = some r ∧ r.Same s := by
  obtain ⟨is, hkept⟩ := h.kept
  obtain ⟨r, hr, hsame, _⟩ := hkept.stream_of_after hs
  exact ⟨r, hr, hsame⟩

theorem same (h : Sustains m k lead a₀ x source age c a) (hy : y.In a₀) (hs : a.stream? y.index = some s) :
    y.stream.Same s := by
  obtain ⟨r, hr, hsame⟩ := h.stream_of hs
  obtain rfl := Option.some.inj (hy.stream.symm.trans hr)
  exact hsame

theorem ticked_kept (h : Sustains m k lead a₀ x source age c a) {period age' : Nat}
    (hticked : Ticked m v period age' a j b) : ∃ is, Kept is a₀ b := by
  obtain ⟨is, hkept⟩ := h.kept
  exact ⟨_, hkept.trans hticked.kept⟩

/-! ### One tick of one stream -/

/-- A tick of any stream but `x` and its leaves. -/
theorem ticked_other (h : Sustains m k lead a₀ x source age c a) (hsetup : Sustainable m k lead a₀ x source)
    (hx : v ≠ x.index) (hleaves : ∀ p ∈ x.inputs, v ≠ (source p).index) {period : Nat}
    (hticked : Ticked m v period (age v) a j b) : Stocks m x source (older age v) c b where
  products p n hn := by
    obtain ⟨source, hsource, hlow, hhigh, hmax⟩ := h.stocks.products p n hn
    obtain ⟨left, hleft, hlow', hle, hmax'⟩ := hticked.buffer?_le hx.symm hsource hlow
    exact ⟨left, hleft, hlow', hle.trans hhigh, hmax'.trans hmax⟩
  reserves p hp := by
    refine (h.stocks.reserves p hp).congr ?_ ?_ (older_of_ne age hx.symm) (older_of_ne age (hleaves p hp).symm)
    · refine hticked.buffer?_of_ne hx.symm fun t ht slot hslot hsupplier hproduct => ?_
      obtain ⟨r, hr, hsame⟩ := h.stream_of ht
      exact hsetup.untapped r (List.mem_of_getElem? hr) slot (hsame.inputs ▸ hslot) hsupplier (hproduct ▸ hp)
    · refine hticked.buffer?_of_ne (hleaves p hp).symm fun t ht slot hslot hsupplier => ?_
      obtain ⟨r, hr, hsame⟩ := h.stream_of ht
      have hmem : (r, v) ∈ a₀.streams.zipIdx := List.mem_zipIdx_iff_getElem?.2 hr
      exact absurd hsupplier (hsetup.own.alone p hp (r, v) hmem hx slot (hsame.inputs ▸ hslot))

/-- A tick of the leaf of a product. -/
theorem ticked_leaf (h : Sustains m k lead a₀ x source age c a) (hsetup : Sustainable m k lead a₀ x source)
    (hp : p ∈ x.inputs) (hs : a.stream? (source p).index = some s)
    (hticked : Ticked m (source p).index (source p).period (age (source p).index) a j b) :
    Stocks m x source (older age (source p).index) c b := by
  have hsame := h.same (hsetup.own.leaf p hp).1 hs
  cases hticked with
  | waits between => exact (h.stocks.leaf_waits hsetup hp between).withNext _ _
  | idles stream inert =>
    obtain rfl := Option.some.inj (hs.symm.trans stream)
    have hnone := List.isEmpty_iff.1 (Bool.and_eq_true_iff.1 inert).2
    have hmem := hsetup.mem_outputs hp
    rw [← hsame.recipe, hnone] at hmem
    cases hmem
  | turns boundary turn =>
    have hslots : s.inputs = [] := hsame.inputs.trans (hsetup.own.leaf p hp).2
    obtain ⟨lacks, rfl⟩ | ⟨s', produces, rfl⟩ := turn.of_inputs_nil hs hslots
    · exact (h.stocks.leaf_stalls hsetup hp hs hsame lacks).withNext _ _
    · exact (h.stocks.leaf_runs hsetup hp hs hsame boundary produces).withNext _ _

/-- A tick of the taker, whose leaves have had this tick already. -/
theorem ticked_taker (h : Sustains m k lead a₀ x source age c a) (hsetup : Sustainable m k lead a₀ x source)
    (hs : a.stream? x.index = some s) (hages : ∀ p ∈ x.inputs, age (source p).index = age x.index + 1)
    (hticked : Ticked m x.index x.period (age x.index) a j b) :
    Stocks m x source (older age x.index) (c + j) b ∧ min k ((age x.index + 1) / x.period - lead) ≤ c + j := by
  have hsame := h.same hsetup.own.taker hs
  have hahead := h.ahead
  cases hticked with
  | waits between =>
    refine ⟨(h.stocks.waits hsetup between).withNext _ _, ?_⟩
    rwa [Nat.succ_div, if_neg between]
  | idles stream inert =>
    obtain rfl := Option.some.inj (hs.symm.trans stream)
    have hnone := List.isEmpty_iff.1 (Bool.and_eq_true_iff.1 inert).2
    exact absurd (hsame.recipe ▸ hnone) hsetup.own.produces
  | turns boundary turn =>
    have hturns : (age x.index + 1) / x.period = age x.index / x.period + 1 := by
      rw [Nat.succ_div, if_pos boundary]
    have hdrawn := h.stocks.draws hsetup hs hsame boundary hages
    have hafter {t : Stream} (ht : (a.draw m x.index s.inputs).stream? x.index = some t) : x.stream.Same t :=
      hsame.trans ((Kept.draw a x.index s.inputs).same hs ht)
    cases turn with
    | @stalls r t stream drawn lacks =>
      obtain rfl := Option.some.inj (hs.symm.trans stream)
      refine ⟨hdrawn.withNext _ _, Nat.le_of_not_lt fun hbehind => ?_⟩
      -- Behind by a cycle it could have run.
      have hnow : older age x.index x.index / x.period = c + 1 + lead := by
        rw [older_self]
        omega
      obtain ⟨_, hproduce⟩ := Stream.exists_produce?
        (hdrawn.canProduce hsetup drawn (hafter drawn) (by omega) hnow)
      rw [lacks] at hproduce
      cases hproduce
    | @runs r t t' stream drawn produces =>
      obtain rfl := Option.some.inj (hs.symm.trans stream)
      refine ⟨(hdrawn.runs hsetup drawn (hafter drawn) produces).withNext _ _, ?_⟩
      omega

/-- A tick of any stream. When it is the taker's, its leaves have had this tick already. -/
theorem ticked (h : Sustains m k lead a₀ x source age c a) (hsetup : Sustainable m k lead a₀ x source)
    (hs : a.stream? v = some s) {period : Nat} (hperiod : s.recipe.period = .ok period)
    (hages : v = x.index → ∀ p ∈ x.inputs, age (source p).index = age x.index + 1)
    (hticked : Ticked m v period (age v) a j b) :
    Sustains m k lead a₀ x source (older age v) (c + if v = x.index then j else 0) b := by
  have hkept := h.ticked_kept hticked
  have haged := h.aged.ticked hs hperiod hticked
  have hperiod_eq {y : Placed} (hy : y.In a₀) (hv : v = y.index) : y.period = period := by
    subst v
    have hy' := hy.period
    rw [← (h.same hy hs).recipe, hperiod] at hy'
    exact (Int.ofNat.inj (Except.ok.inj hy')).symm
  cases Decidable.em (v = x.index) with
  | inl hx =>
    obtain rfl := hperiod_eq hsetup.own.taker hx
    rw [if_pos hx]
    subst v
    obtain ⟨hstocks, hahead⟩ := h.ticked_taker hsetup hs (hages rfl) hticked
    exact ⟨hkept, haged, hstocks, (older_self age x.index).symm ▸ hahead⟩
  | inr hx =>
    rw [if_neg hx]
    have hahead : min k (older age v x.index / x.period - lead) ≤ c := by
      rw [older_of_ne age (Ne.symm hx)]
      exact h.ahead
    refine ⟨hkept, haged, ?_, hahead⟩
    cases Classical.em (∃ p ∈ x.inputs, v = (source p).index) with
    | inl hleaf =>
      obtain ⟨p, hp, hv⟩ := hleaf
      obtain rfl := hperiod_eq (hsetup.own.leaf p hp).1 hv
      subst v
      exact h.ticked_leaf hsetup hp hs hticked
    | inr hleaf => exact h.ticked_other hsetup hx (fun p hp hv => hleaf ⟨p, hp, hv⟩) hticked

/-! ### The start -/

/-- Where streams are as they were registered, nothing has happened yet. -/
theorem start (hsetup : Sustainable m k lead a₀ x source)
    (hfresh : ∀ i s, a₀.stream? i = some s → s = Stream.fresh s.recipe s.inputs s.mult m) :
    Sustains m k lead a₀ x source (fun _ => 0) 0 a₀ where
  kept := ⟨[], Kept.refl [] a₀⟩
  aged i s period hs _ := by
    rw [congrArg Stream.next (hfresh i s hs)]
    simp [Stream.fresh, Clock.countdown]
  stocks := Stocks.start hsetup hfresh
  ahead := by simp

theorem congr {age' : Nat → Nat} (h : Sustains m k lead a₀ x source age c a)
    (hsetup : Sustainable m k lead a₀ x source) (hage : ∀ v < a₀.size, age v = age' v) :
    Sustains m k lead a₀ x source age' c a := by
  have hplaced {y : Placed} (hy : y.In a₀) : age' y.index = age y.index :=
    (hage _ (List.getElem?_eq_some_iff.1 hy.stream).1).symm
  refine ⟨h.kept, fun i s period hs hperiod => ?_, ?_, ?_⟩
  · obtain ⟨is, hkept⟩ := h.kept
    rw [← hage i (hkept.size ▸ (List.getElem?_eq_some_iff.1 hs).1)]
    exact h.aged i s period hs hperiod
  · exact h.stocks.congr (hplaced hsetup.own.taker) fun p hp => hplaced (hsetup.own.leaf p hp).1
  · rw [hplaced hsetup.own.taker]
    exact h.ahead

/-! ### One tick of all streams -/

/-- Ticks of each stream when the streams before `v` have had their tick. -/
def agesAt (passed v : Nat) : Nat → Nat := fun u => if u < v then passed + 1 else passed

theorem older_agesAt (passed v : Nat) : older (agesAt passed v) v = agesAt passed (v + 1) := by
  funext u
  unfold agesAt
  cases Decidable.em (u = v) with
  | inl hu =>
    subst u
    rw [older_self, if_neg (Nat.lt_irrefl v), if_pos (Nat.lt_succ_self v)]
  | inr hu =>
    rw [older_of_ne _ hu]
    have hlt : u < v ↔ u < v + 1 := by omega
    simp only [hlt]

/-- The call stops at nothing but a report that the log has no room for. -/
abbrev TooLong (least : Level) (f : Fault) (_ : Logged Arena) : Prop :=
  f = .tooManyDigits ∧ least.rank ≤ Level.debug.rank

theorem wp_advance {st : Logged Arena} {passed : Nat} (hsetup : Sustainable m k lead a₀ x source)
    (h : Sustains m k lead a₀ x source (agesAt passed v) c st.state) (hv : v < a₀.size) :
    (advance v 1 m).wp
      (fun r t => t.least = st.least ∧ ∃ j, Sustains m k lead a₀ x source (agesAt passed (v + 1)) (c + j) t.state ∧
        ∀ p, StreamTick.made x.index p [r] = j * x.yield p)
      (TooLong st.least) st := by
  obtain ⟨is, hkept⟩ := h.kept
  obtain ⟨s, hs, hsame, _⟩ := hkept.stream v _ (List.getElem?_eq_getElem hv)
  have hbuilt := hsetup.built.stream v _ (List.getElem?_eq_getElem hv)
  obtain ⟨period, hperiod, hpos⟩ := hbuilt.steady.exists_period
  rw [← hsame.recipe] at hperiod
  have hbound : st.state.SlotsBound v := by
    intro t ht slot hslot
    obtain ⟨r, hr, hsame⟩ := h.stream_of ht
    have hlt := hsetup.built.bindsEarlier.lt ⟨r, hr, slot, hsame.inputs ▸ hslot, rfl⟩
    exact hkept.size.symm ▸ Nat.lt_trans hlt hv
  have hwp := wp_advance_one (m := m) hs hbound hperiod hpos (h.aged v s period hs hperiod)
  refine hwp.weaken ?_ fun f t hf => hf
  rintro r t ⟨hleast, j, hticked, rfl⟩
  refine ⟨hleast, ?_⟩
  refine ⟨if v = x.index then j else 0, ?_, fun p => ?_⟩
  · rw [← older_agesAt]
    refine h.ticked hsetup hs hperiod (fun hx p hp => ?_) hticked
    subst v
    rw [agesAt, if_pos (hsetup.leaf_lt hp), agesAt, if_neg (Nat.lt_irrefl _)]
  · rw [StreamTick.made_reportOf]
    split
    next hx =>
      subst v
      have hsame := h.same hsetup.own.taker hs
      rw [hsame.recipe, hsame.mult]
      rfl
    next hx => rw [Nat.cast_zero, Int.zero_mul]

/-- The rest of a tick, from stream `v` on. -/
theorem wp_advance_from {st : Logged Arena} {passed : Nat} (hsetup : Sustainable m k lead a₀ x source) (n : Nat)
    (h : Sustains m k lead a₀ x source (agesAt passed v) c st.state) (hv : v + n = a₀.size) :
    ((List.range' v n).mapM fun u => advance u 1 m).wp
      (fun reports t => t.least = st.least ∧ ∃ j,
        Sustains m k lead a₀ x source (agesAt passed a₀.size) (c + j) t.state ∧
        ∀ p, StreamTick.made x.index p reports = j * x.yield p)
      (TooLong st.least) st := by
  induction n generalizing v c st with
  | zero =>
    rw [Nat.add_zero] at hv
    exact Action.wp.pure ⟨rfl, 0, hv ▸ h, fun p => by simp [StreamTick.made]⟩
  | succ n ih =>
    rw [List.range'_succ, List.mapM_cons]
    refine Action.wp.bind ((wp_advance hsetup h (by omega)).weaken ?_ fun _ _ hf => hf)
    rintro r t ⟨hleast, j, hj, hmade⟩
    refine Action.wp.bind ((ih hj (by omega)).weaken ?_ fun f _ hf => hleast ▸ hf)
    rintro reports t' ⟨hleast', j', hj', hmade'⟩
    refine Action.wp.pure ⟨hleast'.trans hleast, j + j', Nat.add_assoc c j j' ▸ hj', fun p => ?_⟩
    rw [← List.singleton_append, StreamTick.made_append, hmade, hmade', Nat.cast_add, Int.add_mul]

theorem wp_tick {st : Logged Arena} {passed : Nat} (hsetup : Sustainable m k lead a₀ x source)
    (h : Sustains m k lead a₀ x source (fun _ => passed) c st.state) :
    (tick 1 .suppliersFirst m).wp
      (fun reports t => t.least = st.least ∧ ∃ j,
        Sustains m k lead a₀ x source (fun _ => passed + 1) (c + j) t.state ∧
        ∀ p, StreamTick.made x.index p reports = j * x.yield p)
      (TooLong st.least) st := by
  obtain ⟨is, hkept⟩ := h.kept
  have hearlier : st.state.BindsEarlier := hkept.raised.bindsEarlier hsetup.built.bindsEarlier
  refine Action.wp.bind_current (Action.wp.bind_ok (visitOrder_eq_range hearlier) ?_)
  rw [List.range_eq_range', hkept.size]
  refine (wp_advance_from hsetup a₀.size (h.congr hsetup fun _ _ => rfl) (Nat.zero_add _)).weaken ?_
    fun _ _ hf => hf
  rintro reports t ⟨hleast, j, hj, hmade⟩
  exact ⟨hleast, j, hj.congr hsetup fun u hu => if_pos hu, hmade⟩

end Sustains

end Arena

end Conveyor
