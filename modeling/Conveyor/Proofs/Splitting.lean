-- SUMMARY: To advance a stream twice makes and leaves what advancing it once for the whole time does.
import Conveyor.Proofs.Clock
import Conveyor.Proofs.Conservation
import Conveyor.Proofs.Faults
import Conveyor.Proofs.Production
import Conveyor.Proofs.Pulling

/-!
# Splitting time

An attempt that completes no cycle has drawn what it could, so the next attempt finds the same and fails
as well. A call that is cut in two therefore completes the same cycles: if the first part runs dry, the
second part does not get further than the whole would have. Countdowns add up, and nothing that happens
in between looks at them.
-/

namespace Conveyor

/-- Production does not look at the countdown. -/
theorem Stream.produce?_withNext (s : Stream) (n : Int) :
    Stream.produce? { s with next := some n } = s.produce?.map ({ · with next := some n }) := by
  change (if s.canProduce then _ else none) = Option.map _ (if s.canProduce then _ else none)
  split <;> rfl

/-- The report `r` is that of the same stream as `r₁` and `r₂`, and its units are theirs together. -/
structure StreamTick.Sum (r₁ r₂ r : StreamTick) : Prop where
  index : r₁.index = r.index ∧ r₂.index = r.index
  keys : r₁.produced.keys = r.produced.keys ∧ r₂.produced.keys = r.produced.keys
  units : ∀ p, r.produced.getD p 0 = r₁.produced.getD p 0 + r₂.produced.getD p 0

namespace Arena

variable {a b c : Arena} {i : Nat} {m : Int} {s : Stream}

/-- Every slot of stream `i` is bound to a stream. -/
def SlotsBound (a : Arena) (i : Nat) : Prop :=
  ∀ s, a.stream? i = some s → ∀ slot ∈ s.inputs, slot.supplier < a.size

theorem SlotsBound.of_kept (h : a.SlotsBound i) {is : List Nat} (hkept : Kept is a b) : b.SlotsBound i := by
  intro t ht slot hslot
  obtain ⟨s, hs, hsame, _⟩ := hkept.stream_of_after ht
  exact hkept.size.symm ▸ h s hs slot (hsame.inputs ▸ hslot)

/-! ## Attempts -/

/-- Pulling by stream `i`, whatever its countdown, leads from `a` to `b` and ends as `x` says, and so it
does again. -/
theorem exists_pulled (hs : a.stream? i = some s) (ha : a.Stocked i) :
    ∃ x b, (∀ n, Action.Ends (pull m i) (a.withNext i n) x (b.withNext i n)) ∧
      (∀ n, Action.Ends (pull m i) (b.withNext i n) x (b.withNext i n)) ∧ b.Stocked i ∧ Kept [] a b ∧
      (a.SlotsBound i → x = .ok ()) := by
  have hlt : i < a.size := (List.getElem?_eq_some_iff.1 hs).1
  obtain ⟨x, b, h⟩ : ∃ x b, Drawn m i s.inputs a x b := exists_drawn ha hlt
  have hpull {d e : Arena} {t : Stream} {n : Int} (ht : d.stream? i = some t) (hinputs : t.inputs = s.inputs)
      (hdraw : Action.Ends (s.inputs.forM (pullSlot m i)) (d.withNext i n) x e) :
      Action.Ends (pull m i) (d.withNext i n) x e := by
    refine Action.Ends.bind_current ?_
    rw [stream_of_eq_some (stream?_withNext ht n)]
    exact Action.Ends.bind_lift (hinputs.symm ▸ hdraw)
  obtain ⟨t, ht, hsame, _⟩ := h.kept.stream i s hs
  exact ⟨x, b, fun n => hpull hs rfl (h.ends n), fun n => hpull ht hsame.inputs (h.again n), h.stocked,
    h.kept, fun hbound => h.answers (hbound s hs)⟩

theorem ends_attempt_of_none (hpull : Action.Ends (pull m i) a (.ok ()) b) (hs : b.stream? i = some s)
    (hproduce : s.produce? = none) : Action.Ends (attempt m i) a (.ok false) b := by
  refine hpull.bind (Action.Ends.bind_current ?_)
  rw [stream_of_eq_some hs]
  refine Action.Ends.bind_lift ?_
  rw [hproduce]
  exact Action.Ends.pure false

theorem ends_attempt_of_some (hpull : Action.Ends (pull m i) a (.ok ()) b) (hs : b.stream? i = some s)
    {t : Stream} (hproduce : s.produce? = some t) :
    Action.Ends (attempt m i) a (.ok true) (b.modify i fun _ => t) := by
  refine hpull.bind (Action.Ends.bind_current ?_)
  rw [stream_of_eq_some hs]
  refine Action.Ends.bind_lift ?_
  rw [hproduce]
  exact (Action.Ends.assign _).bind (Action.Ends.pure true)

/-- An attempt by stream `i`, whatever its countdown, leads from `a` to `b` and ends as `x` says. If it
completes no cycle, the next one ends the same way and changes nothing. -/
structure Attempted (m : Int) (i : Nat) (a : Arena) (x : Except Fault Bool) (b : Arena) : Prop where
  ends : ∀ n, Action.Ends (attempt m i) (a.withNext i n) x (b.withNext i n)
  again : x ≠ .ok true → ∀ n, Action.Ends (attempt m i) (b.withNext i n) x (b.withNext i n)
  stocked : b.Stocked i
  kept : Kept [] a b

theorem exists_attempted (hs : a.stream? i = some s) (ha : a.Stocked i) :
    ∃ x b, Attempted m i a x b ∧ (a.SlotsBound i → ∃ done, x = .ok done) := by
  obtain ⟨x, b, hends, hagain, hstocked, hkept, hanswers⟩ := exists_pulled (m := m) hs ha
  cases x with
  | error f =>
    refine ⟨.error f, b, ⟨fun n => (hends n).bind_error, fun _ n => (hagain n).bind_error, hstocked, hkept⟩,
      fun hbound => ?_⟩
    cases hanswers hbound
  | ok _ =>
    obtain ⟨t, ht, _⟩ := hkept.stream i s hs
    have hproduce (n : Int) := t.produce?_withNext n
    cases hp : t.produce? with
    | none =>
      simp only [hp, Option.map_none] at hproduce
      exact ⟨.ok false, b, ⟨fun n => ends_attempt_of_none (hends n) (stream?_withNext ht n) (hproduce n),
        fun _ n => ends_attempt_of_none (hagain n) (stream?_withNext ht n) (hproduce n), hstocked, hkept⟩,
        fun _ => ⟨false, rfl⟩⟩
    | some t' =>
      simp only [hp, Option.map_some] at hproduce
      have hcycle (n : Int) : (b.withNext i n).modify i (fun _ => { t' with next := some n }) =
          (b.modify i fun _ => t').withNext i n := by
        simp only [withNext, modify_modify, Function.comp_def]
      have hkept' : Kept [] b (b.modify i fun _ => t') := Kept.modify fun r hr => by
        obtain rfl := Option.some.inj (ht.symm.trans hr)
        exact ⟨Stream.produce?_same hp, fun _ => Stream.produce?_next hp⟩
      refine ⟨.ok true, b.modify i fun _ => t', ⟨fun n => ?_, fun hne => absurd rfl hne, hstocked.modify _,
        hkept.trans hkept'⟩, fun _ => ⟨true, rfl⟩⟩
      exact hcycle n ▸ ends_attempt_of_some (hends n) (stream?_withNext ht n) (hproduce n)

/-! ## Cycles -/

/-- So many attempts by stream `i`, whatever its countdown, lead from `a` to `b`, and `x` says how many of
them complete a cycle. -/
def Cycled (m : Int) (i n : Nat) (a : Arena) (x : Except Fault Nat) (b : Arena) : Prop :=
  ∀ k next, Action.Ends (runCycles m i n k) (a.withNext i next) (x.map (k + ·)) (b.withNext i next)

/-- Completed cycles of two runs, if both are to the end. -/
def bothCycles (x y : Except Fault Nat) : Except Fault Nat := do
  return (← x) + (← y)

variable {n : Nat}

theorem Cycled.zero (m : Int) (i : Nat) (a : Arena) : Cycled m i 0 a (.ok 0) a :=
  fun k _ => Action.Ends.pure k

namespace Attempted

variable {x : Except Fault Bool} {y : Except Fault Nat}

theorem cycled_succ (h : Attempted m i a (.ok true) b) (hc : Cycled m i n b y c) :
    Cycled m i (n + 1) a (y.map (1 + ·)) c := by
  intro k next
  have hrest := hc (k + 1) next
  have hcount : (y.map (1 + ·)).map (k + ·) = y.map (k + 1 + ·) := by
    cases y with
    | error f => rfl
    | ok j => exact congrArg Except.ok (Nat.add_assoc k 1 j).symm
  rw [hcount]
  exact (h.ends next).bind hrest

/-- The first attempt that fails ends the run, and whatever run comes after it. -/
theorem cycled_of_ne (h : Attempted m i a x b) (hx : x ≠ .ok true) :
    Cycled m i (n + 1) a (x.map fun _ => 0) b ∧ Cycled m i (n + 1) b (x.map fun _ => 0) b := by
  have hends {d : Arena} (hd : ∀ next, Action.Ends (attempt m i) (d.withNext i next) x (b.withNext i next)) :
      Cycled m i (n + 1) d (x.map fun _ => 0) b := by
    intro k next
    cases x with
    | error f => exact (hd next).bind_error
    | ok done =>
      cases done with
      | true => exact absurd rfl hx
      | false => exact (hd next).bind (Action.Ends.pure k)
  exact ⟨hends h.ends, hends (h.again hx)⟩

end Attempted

theorem exists_cycled (hs : a.stream? i = some s) (ha : a.Stocked i) (n : Nat) :
    ∃ x b, Cycled m i n a x b ∧ (a.SlotsBound i → ∃ k, x = .ok k) := by
  induction n generalizing a s with
  | zero => exact ⟨.ok 0, a, Cycled.zero m i a, fun _ => ⟨0, rfl⟩⟩
  | succ n ih =>
    obtain ⟨x, b, h, hanswers⟩ := exists_attempted (m := m) hs ha
    cases Classical.em (x = .ok true) with
    | inl hx =>
      subst hx
      obtain ⟨t, ht, _⟩ := h.kept.stream i s hs
      obtain ⟨y, c, hc, hrest⟩ := ih ht h.stocked
      refine ⟨_, c, h.cycled_succ hc, fun hbound => ?_⟩
      obtain ⟨k, rfl⟩ := hrest (hbound.of_kept h.kept)
      exact ⟨1 + k, rfl⟩
    | inr hx =>
      refine ⟨_, b, (h.cycled_of_ne hx).1, fun hbound => ?_⟩
      obtain ⟨done, rfl⟩ := hanswers hbound
      exact ⟨0, rfl⟩

theorem bothCycles_zero (y : Except Fault Nat) : bothCycles (.ok 0) y = y := by
  cases y with
  | error f => rfl
  | ok k => exact congrArg Except.ok (Nat.zero_add k)

/-- One cycle more in the first part is one more in both. -/
theorem bothCycles_succ (x y : Except Fault Nat) :
    bothCycles (x.map (1 + ·)) y = (bothCycles x y).map (1 + ·) := by
  cases x with
  | error f => rfl
  | ok j =>
    cases y with
    | error f => rfl
    | ok k => exact congrArg Except.ok (Nat.add_assoc 1 j k)

/-- Once an attempt has come to nothing, a second part comes to nothing, if it attempts anything. -/
theorem Attempted.exists_second {w : Except Fault Bool} (h : Attempted m i a w b) (hw : w ≠ .ok true) (n : Nat) :
    ∃ y, Cycled m i n b y b ∧ bothCycles (w.map fun _ => 0) y = w.map (fun _ => 0) ∧
      ((∃ done, w = .ok done) → ∃ k, y = .ok k) := by
  cases n with
  | zero => exact ⟨.ok 0, Cycled.zero m i b, by cases w <;> rfl, fun _ => ⟨0, rfl⟩⟩
  | succ n =>
    refine ⟨_, (h.cycled_of_ne hw).2, by cases w <;> rfl, ?_⟩
    rintro ⟨done, rfl⟩
    exact ⟨0, rfl⟩

/-- A run in two parts completes the cycles of one run, and leaves what that leaves. -/
theorem exists_cycled_add (hs : a.stream? i = some s) (ha : a.Stocked i) (n₁ n₂ : Nat) :
    ∃ x b y c, Cycled m i n₁ a x b ∧ Cycled m i n₂ b y c ∧ Cycled m i (n₁ + n₂) a (bothCycles x y) c ∧
      Kept [] a b ∧ (a.SlotsBound i → (∃ k, x = .ok k) ∧ ∃ k, y = .ok k) := by
  induction n₁ generalizing a s with
  | zero =>
    obtain ⟨y, c, hc, hanswers⟩ := exists_cycled (m := m) hs ha n₂
    refine ⟨.ok 0, a, y, c, Cycled.zero m i a, hc, ?_, Kept.refl [] a, fun hbound => ⟨⟨0, rfl⟩, hanswers hbound⟩⟩
    rwa [Nat.zero_add, bothCycles_zero]
  | succ n₁ ih =>
    obtain ⟨w, b, h, hanswers⟩ := exists_attempted (m := m) hs ha
    cases Classical.em (w = .ok true) with
    | inl hw =>
      subst hw
      obtain ⟨t, ht, _⟩ := h.kept.stream i s hs
      obtain ⟨x, c, y, d, hc, hd, hcd, hkept, hrest⟩ := ih ht h.stocked
      refine ⟨_, c, y, d, h.cycled_succ hc, hd, ?_, h.kept.trans hkept, fun hbound => ?_⟩
      · rw [bothCycles_succ, Nat.add_right_comm]
        exact h.cycled_succ hcd
      · obtain ⟨⟨k, rfl⟩, hy⟩ := hrest (hbound.of_kept h.kept)
        exact ⟨⟨1 + k, rfl⟩, hy⟩
    | inr hw =>
      obtain ⟨y, hsecond, hboth, hy⟩ := h.exists_second hw n₂
      refine ⟨_, b, y, b, (h.cycled_of_ne hw).1, hsecond, ?_, h.kept, fun hbound => ?_⟩
      · rw [hboth, Nat.add_right_comm]
        exact (h.cycled_of_ne hw).1
      · obtain ⟨done, hdone⟩ := hanswers hbound
        exact ⟨⟨0, hdone ▸ rfl⟩, hy ⟨done, hdone⟩⟩

/-! ## Calls -/

/-- What stream `s`, at index `i`, reports of so many cycles. -/
def reportOf (s : Stream) (i k : Nat) : StreamTick :=
  ⟨i, s.recipe.outputTotals.mapValues fun amount => k * (amount * s.mult)⟩

/-- What holds of runs of cycles holds of this one. -/
theorem Cycled.of_yields {P : Arena → Prop} {Q : Nat → Arena → Prop} {k : Nat} {next : Int}
    (h : Cycled m i n a (.ok k) b) (hruns : Action.Yields P (runCycles m i n 0) Q) (ha : P (a.withNext i next)) :
    Q k (b.withNext i next) := by
  have hend := hruns.of_eq_ok ha (h 0 next { state := a.withNext i next } rfl)
  change Q (0 + k) _ at hend
  rwa [Nat.zero_add] at hend

/-- Of all that is made in cycles there is a buffer to report. -/
theorem Cycled.exists_buffer {k : Nat} (h : Cycled m i n a (.ok k) b) (hs : a.stream? i = some s) (next : Int) :
    ∀ e ∈ (reportOf s i k).produced.entries, 0 < e.2 → ∃ held, (b.withNext i next).buffer i e.1 = .ok held := by
  intro e he hpos
  obtain ⟨⟨p, amount⟩, hentry, rfl⟩ := List.mem_map.1 he
  have hk : 0 < k := by
    refine Nat.pos_of_ne_zero fun hzero => ?_
    subst hzero
    change 0 < ((0 : Nat) : Int) * (amount * s.mult) at hpos
    rw [Int.natCast_zero, Int.zero_mul] at hpos
    exact Int.lt_irrefl 0 hpos
  have hstores : 0 < k → (b.withNext i next).StoresYield i :=
    h.of_yields (yields_runCycles_stores i n 0) fun hnone => absurd hnone (Nat.lt_irrefl 0)
  have hkept := (h.of_yields (yields_runCycles _ i n 0) (Progress.zero (a.withNext i next) i)).2.kept
  obtain ⟨t, ht, hsame, _⟩ := hkept.stream i _ (stream?_withNext hs next)
  have hkey : p ∈ s.recipe.outputTotals.keys := List.mem_map_of_mem hentry
  exact (hstores hk).exists_buffer ht (hsame.recipe.symm ▸ hkey)

/-- A report of what is in buffers changes no state, and is passed over if the log leaves it out. -/
theorem wp_reportProduced {produced : Table Product Int} (st : Logged Arena)
    (hheld : ∀ e ∈ produced.entries, 0 < e.2 → ∃ held, st.state.buffer i e.1 = .ok held) :
    (reportProduced i produced).wp (fun _ t => t.state = st.state ∧ t.least = st.least)
      (fun f t => (t.state = st.state ∧ t.least = st.least) ∧ f = .tooManyDigits ∧
        st.least.rank ≤ Level.debug.rank) st := by
  refine Action.wp.bind_current (Action.wp.forM (fun entry hentry t ht => ?_) ⟨rfl, rfl⟩)
  refine Action.wp.ite (fun hpos => ?_) fun _ => Action.wp.pure ht
  obtain ⟨held, hheld⟩ := hheld entry hentry hpos
  refine Action.wp.bind_ok hheld (Action.wp.report ?_ ?_ ?_)
  · exact fun _ => ht
  · exact fun _ _ => ht
  · exact fun h => ⟨ht, rfl, ht.2 ▸ Nat.not_lt.1 h⟩

/-- A call sets the countdown that the clock gives, completes the cycles that its attempts complete, and
reports them. -/
theorem wp_advance_of_report {st : Logged Arena} {ticks period crossed next : Int} {x : Except Fault Nat}
    {Q : StreamTick → Logged Arena → Prop} {E : Fault → Logged Arena → Prop} (hs : st.state.stream? i = some s)
    (hperiod : s.recipe.period = .ok period)
    (hclock : Clock.advance (s.next.getD period) period ticks = .ok (crossed, next))
    (hcycled : Cycled m i (if s.recipe.isInert then 0 else crossed.toNat) st.state x b)
    (hreport : ∀ k, x = .ok k → (reportProduced i (reportOf s i k).produced).wp (fun _ => Q (reportOf s i k)) E
      { st with state := b.withNext i next })
    (herr : ∀ f, x = .error f → E f { st with state := b.withNext i next }) :
    (advance i ticks m).wp Q E st := by
  unfold advance
  refine Action.wp.bind_current (Action.wp.bind_ok (stream_of_eq_some hs) ?_)
  refine Action.wp.bind_ok hperiod (Action.wp.bind_ok hclock (Action.wp.bind ?_))
  change Action.wp _ _ _ { st with state := st.state.withNext i next }
  have hrun := (hcycled 0 next).wp (s := { st with state := st.state.withNext i next })
  refine Action.wp.bind (hrun.weaken ?_ ?_)
  · rintro k _ ⟨hk, rfl⟩
    have hx : x = .ok k := by
      cases x with
      | error f => cases hk
      | ok j => rw [← hk]; exact congrArg Except.ok (Nat.zero_add j).symm
    exact Action.wp.bind ((hreport k hx).weaken (fun _ _ h => Action.wp.pure h) fun _ _ h => h)
  · rintro f _ ⟨hf, rfl⟩
    refine herr f ?_
    cases x with
    | error g => exact hf
    | ok j => cases hf

/-- A call completes the cycles that its attempts complete, and leaves what they leave with the countdown
that the clock gives. -/
theorem wp_advance {st : Logged Arena} {ticks period crossed next : Int} {x : Except Fault Nat}
    (hs : st.state.stream? i = some s) (hperiod : s.recipe.period = .ok period)
    (hclock : Clock.advance (s.next.getD period) period ticks = .ok (crossed, next))
    (hcycled : Cycled m i (if s.recipe.isInert then 0 else crossed.toNat) st.state x b) :
    (advance i ticks m).wp
      (fun r t => (t.state = b.withNext i next ∧ t.least = st.least) ∧ ∃ k, x = .ok k ∧ r = reportOf s i k)
      (fun f t => (t.state = b.withNext i next ∧ t.least = st.least) ∧
        (x = .error f ∨ f = .tooManyDigits ∧ st.least.rank ≤ Level.debug.rank)) st := by
  refine wp_advance_of_report hs hperiod hclock hcycled (fun k hk => ?_) fun f hf => ⟨⟨rfl, rfl⟩, .inl hf⟩
  subst hk
  have hreport := wp_reportProduced { st with state := b.withNext i next } (hcycled.exists_buffer hs next)
  exact hreport.weaken (fun _ t ht => ⟨ht, k, rfl, rfl⟩) fun f t ht => ⟨ht.1, .inr ht.2⟩

/-- No buffer holds less than nothing. -/
def NonNegative (a : Arena) : Prop :=
  ∀ s ∈ a.streams, ∀ b ∈ s.buffers.values, 0 ≤ b.current

instance (a : Arena) : Decidable a.NonNegative :=
  inferInstanceAs (Decidable (∀ s ∈ a.streams, ∀ b ∈ s.buffers.values, 0 ≤ b.current))

theorem NonNegative.stocked (h : a.NonNegative) (i : Nat) : a.Stocked i := by
  intro u _ p b hb
  obtain ⟨s, hs, hb⟩ := buffer?_eq_some_iff.1 hb
  exact h s (List.mem_of_getElem? hs) b (Table.mem_values_iff.2 ⟨p, hb⟩)

theorem sum_reportOf (s : Stream) (i k₁ k₂ : Nat) :
    StreamTick.Sum (reportOf s i k₁) (reportOf s i k₂) (reportOf s i (k₁ + k₂)) where
  index := ⟨rfl, rfl⟩
  keys := by simp only [reportOf, Table.keys_mapValues, and_self]
  units p := by
    simp only [reportOf, Table.getD, Table.get?_mapValues]
    cases s.recipe.outputTotals.get? p with
    | none => rfl
    | some amount =>
      simp only [Option.map_some, Option.getD_some]
      push_cast
      ring

theorem Cycled.withNext {x : Except Fault Nat} (h : Cycled m i n a x b) (next : Int) :
    Cycled m i n (a.withNext i next) x b := by
  intro k next'
  rw [withNext_withNext]
  exact h k next'

/-- The clock crosses in a time what it crosses in both parts of it. -/
theorem exists_clock_add {next period ticks₁ ticks₂ : Int} (hlow : 1 ≤ next) (hhigh : next ≤ period)
    (hticks₁ : 0 ≤ ticks₁) (hticks₂ : 0 ≤ ticks₂) :
    ∃ crossed₁ next₁ crossed₂ next₂, Clock.advance next period ticks₁ = .ok (crossed₁, next₁) ∧
      Clock.advance next₁ period ticks₂ = .ok (crossed₂, next₂) ∧
      Clock.advance next period (ticks₁ + ticks₂) = .ok (crossed₁ + crossed₂, next₂) ∧
      0 ≤ crossed₁ ∧ 0 ≤ crossed₂ := by
  obtain ⟨crossed₁, next₁, hclock₁⟩ : ∃ crossed after, Clock.advance next period ticks₁ = .ok (crossed, after) :=
    ⟨_, _, Clock.advance_eq_ok hlow hhigh hticks₁⟩
  obtain ⟨hlow₁, hhigh₁⟩ := Clock.advance_range hlow hhigh hticks₁ hclock₁
  obtain ⟨crossed₂, next₂, hclock₂⟩ : ∃ crossed after, Clock.advance next₁ period ticks₂ = .ok (crossed, after) :=
    ⟨_, _, Clock.advance_eq_ok hlow₁ hhigh₁ hticks₂⟩
  have hperiod : 0 ≤ period := by omega
  exact ⟨crossed₁, next₁, crossed₂, next₂, hclock₁, hclock₂,
    Clock.advance_add hlow hhigh hticks₁ hticks₂ hclock₁ hclock₂,
    Clock.advance_nonneg hperiod hclock₁, Clock.advance_nonneg hperiod hclock₂⟩

/-- The call answers, unless the log takes in what it reports and one of the reports is too long to be
written. -/
abbrev AnswersUnlessLong {α : Type} (least : Level) (x : Except Fault α) : Prop :=
  Faults (fun f => f = .tooManyDigits ∧ least.rank ≤ Level.debug.rank) x

/-- To advance a stream twice leaves the arena that advancing it once for the whole time leaves, and the
two reports add up to the one, whatever the recipe and the bindings are. If every slot is bound to a
stream, these calls answer. -/
theorem advance_split {st : Logged Arena} {period ticks₁ ticks₂ : Int} (hs : st.state.stream? i = some s)
    (hperiod : s.recipe.period = .ok period) (hpos : 1 ≤ period)
    (hnext : ∀ n, s.next = some n → 1 ≤ n ∧ n ≤ period) (hstock : st.state.NonNegative)
    (hticks₁ : 0 ≤ ticks₁) (hticks₂ : 0 ≤ ticks₂) :
    ((advance i ticks₂ m).after ((advance i ticks₁ m).after st)).state
        = ((advance i (ticks₁ + ticks₂) m).after st).state ∧
    (∀ r₁ r₂ r, (advance i ticks₁ m).outcome st = .ok r₁ →
      (advance i ticks₂ m).outcome ((advance i ticks₁ m).after st) = .ok r₂ →
      (advance i (ticks₁ + ticks₂) m).outcome st = .ok r → r₁.Sum r₂ r) ∧
    (st.state.SlotsBound i →
      AnswersUnlessLong st.least ((advance i ticks₁ m).outcome st) ∧
      AnswersUnlessLong st.least ((advance i ticks₂ m).outcome ((advance i ticks₁ m).after st)) ∧
      AnswersUnlessLong st.least ((advance i (ticks₁ + ticks₂) m).outcome st)) := by
  have hrange : 1 ≤ s.next.getD period ∧ s.next.getD period ≤ period := by
    cases hn : s.next with
    | none => exact ⟨hpos, Int.le_refl period⟩
    | some n => exact hnext n hn
  obtain ⟨crossed₁, next₁, crossed₂, next₂, hclock₁, hclock₂, hclock, hcrossed₁, hcrossed₂⟩ :=
    exists_clock_add hrange.1 hrange.2 hticks₁ hticks₂
  obtain ⟨x, b, y, c, hfirst, hsecond, hboth, hkept, hanswers⟩ := exists_cycled_add (m := m) hs
    (hstock.stocked i) (if s.recipe.isInert then 0 else crossed₁.toNat)
    (if s.recipe.isInert then 0 else crossed₂.toNat)
  have hattempts : (if s.recipe.isInert then 0 else crossed₁.toNat) +
      (if s.recipe.isInert then 0 else crossed₂.toNat) =
      if s.recipe.isInert then 0 else (crossed₁ + crossed₂).toNat := by
    split <;> omega
  rw [hattempts] at hboth
  have hwp₁ := wp_advance hs hperiod hclock₁ hfirst
  have hwp := wp_advance hs hperiod hclock hboth
  obtain ⟨t, ht, hsame, _⟩ := hkept.stream i s hs
  generalize hst₁ : (advance i ticks₁ m).after st = st₁
  have hleft : st₁.state = b.withNext i next₁ ∧ st₁.least = st.least :=
    hst₁ ▸ (hwp₁.weaken (fun _ _ h => h.1) fun _ _ h => h.1).after
  have ht₁ : st₁.state.stream? i = some { t with next := some next₁ } :=
    hleft.1 ▸ stream?_withNext ht next₁
  have hsecond' : Cycled m i (if t.recipe.isInert then 0 else crossed₂.toNat) st₁.state y c :=
    hleft.1 ▸ hsame.recipe ▸ hsecond.withNext next₁
  have hwp₂ := wp_advance ht₁ (hsame.recipe ▸ hperiod) hclock₂ hsecond'
  have hreport (k : Nat) : reportOf { t with next := some next₁ } i k = reportOf s i k := by
    simp only [reportOf, hsame.recipe, hsame.mult]
  refine ⟨?_, fun r₁ r₂ r hr₁ hr₂ hr => ?_, fun hbound => ⟨fun f hf => ?_, fun f hf => ?_, fun f hf => ?_⟩⟩
  · have hstate₂ := (hwp₂.weaken (fun _ _ h => h.1.1) fun _ _ h => h.1.1).after
    have hstate := (hwp.weaken (fun _ _ h => h.1.1) fun _ _ h => h.1.1).after
    exact hstate₂.trans hstate.symm
  · obtain ⟨_, k₁, rfl, rfl⟩ := hwp₁.of_outcome_ok hr₁
    obtain ⟨_, k₂, rfl, rfl⟩ := hwp₂.of_outcome_ok hr₂
    obtain ⟨_, k, hk, rfl⟩ := hwp.of_outcome_ok hr
    obtain rfl := Except.ok.inj hk
    exact hreport k₂ ▸ sum_reportOf s i k₁ k₂
  · obtain ⟨⟨k₁, rfl⟩, _⟩ := hanswers hbound
    exact (hwp₁.of_outcome_error hf).2.resolve_left nofun
  · obtain ⟨_, k₂, rfl⟩ := hanswers hbound
    exact hleft.2 ▸ (hwp₂.of_outcome_error hf).2.resolve_left nofun
  · obtain ⟨⟨k₁, rfl⟩, k₂, rfl⟩ := hanswers hbound
    exact (hwp.of_outcome_error hf).2.resolve_left nofun

theorem AnswersUnlessLong.exists_ok {α : Type} {least : Level} {x : Except Fault α}
    (h : AnswersUnlessLong least x) (hquiet : Level.debug.rank < least.rank) : ∃ v, x = .ok v := by
  cases x with
  | ok v => exact ⟨v, rfl⟩
  | error f => exact absurd (h f rfl).2 (Nat.not_le.2 hquiet)

/-- Three ticks and then five are eight, for a mine that digs every other tick. -/
theorem advance_split_mining :
    ((advance 0 5).after ((advance 0 3).after { state := mining 1 1, least := .info })).state
        = ((advance 0 8).after { state := mining 1 1, least := .info }).state ∧
      ∃ r₁ r₂ r, (advance 0 3).outcome { state := mining 1 1, least := .info } = .ok r₁ ∧
        (advance 0 5).outcome ((advance 0 3).after { state := mining 1 1, least := .info }) = .ok r₂ ∧
        (advance 0 8).outcome { state := mining 1 1, least := .info } = .ok r ∧ r₁.Sum r₂ r := by
  obtain ⟨hstate, hsum, hanswers⟩ := @advance_split 0 defaultBufferMultiplier _
    { state := mining 1 1, least := .info } 2 3 5 rfl rfl (by decide) nofun (by decide) (by decide)
    (by decide)
  have hbound : (mining 1 1).SlotsBound 0 := by
    rintro s hs slot hslot
    obtain rfl := Option.some.inj hs
    cases hslot
  obtain ⟨h₁, h₂, h⟩ := hanswers hbound
  obtain ⟨r₁, hr₁⟩ := h₁.exists_ok (by decide)
  obtain ⟨r₂, hr₂⟩ := h₂.exists_ok (by decide)
  obtain ⟨r, hr⟩ := h.exists_ok (by decide)
  exact ⟨hstate, r₁, r₂, r, hr₁, hr₂, hr, hsum r₁ r₂ r hr₁ hr₂ hr⟩

end Arena

end Conveyor
