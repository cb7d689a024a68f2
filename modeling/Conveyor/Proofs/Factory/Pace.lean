-- SUMMARY: Over a whole run of calls a countdown tells the time since registration, and a stream makes no more than the cycles that the time is enough for.
import Conveyor.Proofs.Assembly
import Conveyor.Proofs.Factory.Carries
import Conveyor.Proofs.Factory.Sustained
import Conveyor.Proofs.Pace

/-!
# Production and the clock

Whatever is called between ticks, the countdown of a stream is the rest of the period that is running, by
all the ticks since the stream was registered. No split of the time, no stall and no other call gains or
loses it a tick, so it never reports more than what the periods that have passed are enough for.
-/

namespace Conveyor

/-! ## The clock since a start -/

/-- A countdown that tells the time since a start goes on to tell it: so many boundaries lie between. -/
theorem Clock.advance_of_elapsed {period next T n : Int} (hperiod : 1 ≤ period) (hn : 0 ≤ n)
    (hnext : next = period - T % period) :
    advance next period n = .ok ((T + n) / period - T / period, period - (T + n) % period) := by
  have hnonneg := Int.emod_nonneg T (by omega : period ≠ 0)
  have hlt := Int.emod_lt_of_pos T (by omega : 0 < period)
  have hrest : period - next + n = T + n + -(T / period) * period := by
    have hdiv := Int.emod_add_mul_ediv T period
    have hcomm := Int.mul_comm (T / period) period
    rw [Int.neg_mul]
    omega
  rw [advance_eq_ok (by omega) (by omega) hn, hrest, Int.add_mul_ediv_right _ _ (by omega),
    Int.add_mul_emod_self_right]
  rfl

/-- Stream `r`, which was registered as `r₁`, after so many ticks, with so many units reported. -/
structure Stream.Paced (r₁ : Stream) (period : Int) (T : Nat) (units : Product → Int) (r : Stream) : Prop where
  recipe : r.recipe = r₁.recipe
  mult_le : r₁.mult ≤ r.mult
  countdown : r.next.getD period = period - T % period
  units_le : ∀ p, units p ≤ r.recipe.yieldOf p * r.mult * (T / period)

/-- What does not touch the clock: stock moves, and copies are added. -/
structure Stream.OffClock (s t : Stream) : Prop where
  recipe : t.recipe = s.recipe
  next : t.next = s.next
  mult_le : s.mult ≤ t.mult

theorem Stream.offClock_lasting : Stream.Lasting Stream.OffClock where
  refl _ := ⟨rfl, rfl, Int.le_refl _⟩
  trans _ _ _ h h' := ⟨h'.recipe.trans h.recipe, h'.next.trans h.next, Int.le_trans h.mult_le h'.mult_le⟩
  buffers _ _ := ⟨rfl, rfl, Int.le_refl _⟩

namespace Stream.Paced

variable {r₁ r t : Stream} {period : Int} {T : Nat} {units : Product → Int}

theorem offClock (h : Paced r₁ period T units r) (hr : r.recipe.Positive) (hperiod : 1 ≤ period)
    (hrt : r.OffClock t) : Paced r₁ period T units t where
  recipe := hrt.recipe.trans h.recipe
  mult_le := Int.le_trans h.mult_le hrt.mult_le
  countdown := hrt.next ▸ h.countdown
  units_le p := by
    have hcycles : 0 ≤ (T : Int) / period := Int.ediv_nonneg (Int.natCast_nonneg T) (by omega)
    have hyield := Recipe.yieldOf_nonneg hr p
    have hgrows : r.recipe.yieldOf p * r.mult ≤ r.recipe.yieldOf p * t.mult :=
      Int.mul_le_mul_of_nonneg_left hrt.mult_le hyield
    rw [hrt.recipe]
    exact (h.units_le p).trans (Int.mul_le_mul_of_nonneg_right hgrows hcycles)

/-- Time passes: the countdown goes on, and no more cycles are reported than boundaries lie between. -/
theorem pass (h : Paced r₁ period T units r) (hr : r.recipe.Positive) (hmult : 0 ≤ r.mult)
    (hperiod : 1 ≤ period) {n k : Nat} (hrt : r.Same t) (hnext : t.next = some (period - (T + n) % period))
    (hk : k ≤ (((T : Int) + n) / period - T / period).toNat) :
    Paced r₁ period (T + n) (fun p => units p + k * (r.recipe.yieldOf p * r.mult)) t where
  recipe := hrt.recipe.trans h.recipe
  mult_le := hrt.mult ▸ h.mult_le
  countdown := by rw [hnext]; rfl
  units_le p := by
    have hyield : 0 ≤ r.recipe.yieldOf p * r.mult := Int.mul_nonneg (Recipe.yieldOf_nonneg hr p) hmult
    have hmono : (T : Int) / period ≤ (T + n) / period := Int.ediv_le_ediv (by omega) (by omega)
    have hcycles : (k : Int) ≤ (T + n) / period - T / period := by omega
    rw [hrt.recipe, hrt.mult]
    push_cast
    calc units p + k * (r.recipe.yieldOf p * r.mult)
        ≤ r.recipe.yieldOf p * r.mult * (T / period)
          + ((T + n) / period - T / period) * (r.recipe.yieldOf p * r.mult) :=
          add_le_add (h.units_le p) (Int.mul_le_mul_of_nonneg_right hcycles hyield)
      _ = r.recipe.yieldOf p * r.mult * ((T + n) / period) := by ring

end Stream.Paced

namespace Arena

theorem Built.ready {a : Arena} (h : a.Built) : a.Ready where
  bound := h.bindsEarlier.slotsBound
  period i s hs := by
    obtain ⟨n, hn⟩ := (h.stream i s hs).timed
    exact ⟨n, by rw [Recipe.period, hn.ticks]; rfl, hn.pos⟩

theorem BindsEarlier.exists_visitOrder {a : Arena} (h : a.BindsEarlier) (order : TickOrder) :
    ∃ is, a.visitOrder order = .ok is := by
  cases order with
  | registration => exact ⟨_, rfl⟩
  | suppliersFirst => exact ⟨_, visitOrder_eq_range h⟩
  | consumersFirst => exact ⟨_, by rw [visitOrder_consumersFirst, visitOrder_eq_range h]; rfl⟩

end Arena

namespace Factory

/-! ## Ticks and units of a run -/

/-- Ticks that a call passes, if it comes to that: none, if it is no tick or its number is refused. -/
def Call.ticks : Call → Nat
  | tick value =>
    match requireInt .tickCount none 0 value with
    | .ok n => n.toNat
    | .error _ => 0
  | _ => 0

/-- A call, with its answer, takes so many ticks for a stream: all of its ticks, or none if it was stopped
before it came to the stream. -/
def Takes (entry : Call × Except Fault Reply) (n : Nat) : Prop :=
  n = entry.1.ticks ∨ n = 0 ∧ ∃ fault, entry.2 = .error fault

/-- All the calls take so many ticks for a stream. -/
inductive Elapses : List (Call × Except Fault Reply) → Nat → Prop
  | nil : Elapses [] 0
  | cons {entry : Call × Except Fault Reply} {rest : List (Call × Except Fault Reply)} {n T : Nat} :
      Takes entry n → Elapses rest T → Elapses (entry :: rest) (n + T)

/-- Units of a product that a call reports for stream `i`. -/
def unitsReported (i : Nat) (p : Product) : Call × Except Fault Reply → Int
  | (.tick _, .ok (.ticks reports)) => StreamTick.made i p reports
  | _ => 0

/-- Units of a product that all the calls report for stream `i`. -/
def totalReported (i : Nat) (p : Product) (entries : List (Call × Except Fault Reply)) : Int :=
  (entries.map (unitsReported i p)).sum

/-- Where all calls that pass time are answered, all their ticks have passed. -/
theorem Elapses.eq_sum {entries : List (Call × Except Fault Reply)} {T : Nat} (h : Elapses entries T)
    (hanswers : ∀ entry ∈ entries, 0 < entry.1.ticks → entry.2.isOk = true) :
    T = (entries.map (·.1.ticks)).sum := by
  induction h with
  | nil => rfl
  | @cons entry rest n T htakes _ ih =>
    obtain ⟨hentry, hrest⟩ := List.forall_mem_cons.1 hanswers
    have hn : n = entry.1.ticks := by
      rcases htakes with hn | ⟨rfl, fault, hfault⟩
      · exact hn
      · by_contra hne
        have hok := hentry (Nat.pos_of_ne_zero (Ne.symm hne))
        rw [hfault] at hok
        cases hok
    rw [List.map_cons, List.sum_cons, ← ih hrest, hn]

/-! ## One call -/

variable {s : Logged Factory} {i : Nat} {r₁ r : Stream} {period : Int} {T : Nat} {units : Product → Int}

/-- Stream `i` of the factory is paced. -/
def PacedAt (i : Nat) (r₁ : Stream) (period : Int) (T : Nat) (units : Product → Int) (f : Factory) : Prop :=
  ∃ r, f.arena.stream? i = some r ∧ r₁.Paced period T units r

/-- A call that passes no time leaves the clock alone, answered or not. -/
theorem PacedAt.after_off_clock (hs : s.state.WellFormed) (hperiod : 1 ≤ period)
    (h : PacedAt i r₁ period T units s.state) {call : Call} (hcall : call.passesTime = false) :
    PacedAt i r₁ period T units (call.act.after s).state := by
  obtain ⟨r, hr, hpaced⟩ := h
  have hkeeps : Action.Keeps (Carrying Stream.OffClock s.state.arena) call.act :=
    keeps_carrying_act Stream.offClock_lasting (fun htime => by rw [hcall] at htime; cases htime)
      fun _ _ _ hle => ⟨rfl, rfl, hle⟩
  obtain ⟨t, ht, hrt⟩ := hkeeps.after (Arena.Carries.refl Stream.offClock_lasting _) i r hr
  exact ⟨t, ht, hpaced.offClock (hs.arena.stream i r hr).positive hperiod hrt⟩

/-- A call that passes time passes it for the stream, once, and reports what the stream has made in it. One
that is stopped has passed it or has not. -/
theorem wp_tick_of_paced (hs : s.state.WellFormed) (hperiod : r₁.recipe.period = .ok period) (hpos : 1 ≤ period)
    (h : PacedAt i r₁ period T units s.state) {value : Value} {n : Nat}
    (hn : requireInt .tickCount none 0 value = .ok (n : Int)) :
    (tick value).wp
      (fun reports t => PacedAt i r₁ period (T + n) (fun p => units p + StreamTick.made i p reports) t.state)
      (fun _ t => PacedAt i r₁ period T units t.state ∨ PacedAt i r₁ period (T + n) units t.state) s := by
  obtain ⟨r, hr, hpaced⟩ := h
  have hbuilt := hs.arena.stream i r hr
  have hcopies : 0 ≤ r.mult := Int.le_trans Int.one_nonneg hbuilt.copies
  have hclock := Clock.advance_of_elapsed hpos (Int.natCast_nonneg n) hpaced.countdown
  refine Action.wp.bind_ok hn (Action.wp.bind_current (Action.wp.focus ?_))
  let inner : Logged Arena := { s with state := s.state.arena }
  have hready : inner.state.Ready := hs.arena.ready
  have hstream : inner.state.stream? i = some r := hr
  -- The clock may have been set without a report of what was made.
  have hpassed {t : Stream} {k : Nat} (hrt : r.Same t) (hnext : t.next = some (period - (T + n) % period))
      (hk : k ≤ (((T : Int) + n) / period - T / period).toNat) :=
    hpaced.pass hbuilt.positive hcopies hpos hrt hnext hk
  refine (Arena.wp_tick_of_stream hready hstream (hpaced.recipe ▸ hperiod) hclock).weaken ?_ ?_
  · rintro reports t ⟨⟨t', ht', hsame, hnext⟩, k, hk, hmade⟩
    refine ⟨t', ht', ?_⟩
    simp only [hmade]
    exact hpassed hsame hnext hk
  · rintro f t (⟨t', ht', hsame, hnext⟩ | ⟨t', ht', hsame, hnext⟩)
    · refine .inl ⟨t', ht', hpaced.offClock hbuilt.positive hpos ⟨hsame.recipe, hnext, hsame.mult.ge⟩⟩
    · refine .inr ⟨t', ht', ?_⟩
      have hnone := hpassed (k := 0) hsame hnext (Nat.zero_le _)
      simpa only [Int.natCast_zero, Int.zero_mul, Int.add_zero] using hnone

theorem off_clock_of_passesTime {call : Call} (h : call.passesTime = false) :
    call.ticks = 0 ∧ ∀ answer p, unitsReported i p (call, answer) = 0 := by
  cases call with
  | tick value => cases h
  | _ => exact ⟨rfl, fun _ _ => rfl⟩

/-- Every call takes some ticks for the stream, and reports no more units of it than they are enough for. -/
theorem PacedAt.after_call (hs : s.state.WellFormed) (hperiod : r₁.recipe.period = .ok period) (hpos : 1 ≤ period)
    (h : PacedAt i r₁ period T units s.state) (call : Call) :
    ∃ n, Takes (call, call.act.outcome s) n ∧
      PacedAt i r₁ period (T + n) (fun p => units p + unitsReported i p (call, call.act.outcome s))
        (call.act.after s).state := by
  cases hcall : call.passesTime with
  | false =>
    obtain ⟨hticks, hunits⟩ := off_clock_of_passesTime (i := i) hcall
    refine ⟨0, .inl hticks.symm, ?_⟩
    simp only [hunits, Int.add_zero, Nat.add_zero]
    exact h.after_off_clock hs hpos hcall
  | true =>
    cases call with
    | tick value =>
      cases hcount : requireInt .tickCount none 0 value with
      | error f =>
        have hact : (Call.tick value).act s = .error f s := by
          change ((liftM (requireInt .tickCount none 0 value) >>= _) >>= _ : Action Factory Reply) s = _
          rw [hcount]
          rfl
        refine ⟨0, .inl (by simp only [Call.ticks, hcount]), ?_⟩
        simp only [Action.outcome, Action.after, hact, unitsReported, Int.add_zero, Nat.add_zero]
        exact h
      | ok count =>
        obtain ⟨n, rfl⟩ := Int.eq_ofNat_of_zero_le (le_of_requireInt hcount)
        have hticks : (Call.tick value).ticks = n := by simp only [Call.ticks, hcount, Int.toNat_natCast]
        have hact : (Call.tick value).act.wp
            (fun reply t => ∃ reports, reply = .ticks reports ∧
              PacedAt i r₁ period (T + n) (fun p => units p + StreamTick.made i p reports) t.state)
            (fun _ t => PacedAt i r₁ period T units t.state ∨ PacedAt i r₁ period (T + n) units t.state) s :=
          Action.wp.bind ((wp_tick_of_paced hs hperiod hpos h hcount).weaken
            (fun reports t ht => ⟨reports, rfl, ht⟩) fun _ _ ht => ht)
        cases houtcome : (Call.tick value).act.outcome s with
        | ok reply =>
          obtain ⟨reports, rfl, hpaced⟩ := hact.of_outcome_ok houtcome
          exact ⟨n, .inl hticks.symm, hpaced⟩
        | error f =>
          simp only [unitsReported, Int.add_zero]
          rcases hact.of_outcome_error houtcome with hpaced | hpaced
          · exact ⟨0, .inr ⟨rfl, f, rfl⟩, hpaced⟩
          · exact ⟨n, .inl hticks.symm, hpaced⟩
    | _ => cases hcall

/-! ## Runs -/

/-- So do all calls of a run together. -/
theorem PacedAt.run (hs : s.state.WellFormed) (hperiod : r₁.recipe.period = .ok period) (hpos : 1 ≤ period)
    (h : PacedAt i r₁ period T units s.state) (calls : List Call) :
    ∃ T', Elapses (transcript calls s) T' ∧
      PacedAt i r₁ period (T + T') (fun p => units p + totalReported i p (transcript calls s))
        (run calls s).state := by
  induction calls generalizing s T units with
  | nil =>
    refine ⟨0, .nil, ?_⟩
    simp only [totalReported, transcript, List.map_nil, List.sum_nil, Int.add_zero, Nat.add_zero]
    exact h
  | cons call calls ih =>
    obtain ⟨n, htakes, hcall⟩ := h.after_call hs hperiod hpos call
    obtain ⟨T', helapses, hrun⟩ := ih (wellFormed_after hs call) hcall
    refine ⟨n + T', .cons htakes helapses, ?_⟩
    have htotal (p : Product) : totalReported i p (transcript (call :: calls) s) =
        unitsReported i p (call, call.act.outcome s) + totalReported i p (transcript calls (call.act.after s)) := by
      rw [transcript, totalReported, List.map_cons, List.sum_cons]
      rfl
    simp only [htotal, ← Int.add_assoc, ← Nat.add_assoc]
    exact hrun

theorem map_fst_transcript (calls : List Call) (s : Logged Factory) :
    (transcript calls s).map Prod.fst = calls := by
  induction calls generalizing s with
  | nil => rfl
  | cons call calls ih => rw [transcript, List.map_cons, ih]

/-- A call for some ticks is answered, unless a line for the log is too long to be written. -/
theorem answers_tick (hs : s.state.WellFormed) (ticks : Nat) :
    Arena.AnswersUnlessLong s.least ((tick (.int ticks)).outcome s) := by
  have hticks : requireInt .tickCount none 0 (.int ticks) = .ok (ticks : Int) := by
    have hnonneg : ¬ (ticks : Int) < 0 := Int.not_lt.2 (Int.natCast_nonneg ticks)
    simp only [requireInt, Value.int?, if_neg hnonneg]
  let inner : Logged Arena := { s with state := s.state.arena }
  have hready : inner.state.Ready := hs.arena.ready
  obtain ⟨is, his⟩ := hs.arena.bindsEarlier.exists_visitOrder s.state.config.tickOrder
  have hanswers : Arena.AnswersUnlessLong inner.least
      ((Arena.tick ticks s.state.config.tickOrder s.state.config.bufferMultiplier).outcome inner) :=
    Arena.answers_tick hready his
  have hwp : (tick (.int ticks)).wp (fun _ _ => True)
      (fun f _ => f = .tooManyDigits ∧ s.least.rank ≤ Level.debug.rank) s := by
    refine Action.wp.bind_ok hticks (Action.wp.bind_current (Action.wp.focus ?_))
    exact Action.wp.of_outcome (fun _ _ => trivial) hanswers
  exact fun f hf => hwp.of_outcome_error hf

/-- Streams from an index on have no countdown yet. -/
def UnclockedFrom (n : Nat) (f : Factory) : Prop :=
  ∀ i r, n ≤ i → f.arena.stream? i = some r → r.next = none

theorem keeps_unclockedFrom_registerStream (n : Nat) (name : String) (definition : Value) :
    Action.Keeps (UnclockedFrom n) (registerStream name definition) := by
  refine keeps_registerStream name definition ?_ ?_ fun _ hf _ => hf
  · intro f hf recipeName recipe _ slots mult label _ _ i r hi hr
    rcases Arena.stream?_append.1 hr with hr | ⟨_, rfl⟩
    · exact hf i r hi hr
    · rfl
  · exact fun f g _ hg i r hi hr => hg i r hi (Arena.stream?_of_truncate hr).2

/-- Whatever calls were made before, and whatever calls come after a stream was registered, the countdown
of the stream tells the time that has passed for it since: as long as no call is stopped on the way, all
the ticks of these calls. It has reported no more units than the periods in this time are enough for, at
as many copies as it has. The copies only ever become more. A call that passes time is answered, unless a
line for the log is too long to be written. -/
theorem run_keeps_pace (config : Config) (least : Level) (before : List Call) (name : String) (definition : Value)
    (calls : List Call) {i : Nat} :
    let s₀ := run before { state := empty config, least }
    let s₁ := (Call.registerStream name definition).act.after s₀
    let s := run calls s₁
    (∀ ticks : Nat, Arena.AnswersUnlessLong s.least ((tick (.int ticks)).outcome s)) ∧
    (s₀.state.arena.size ≤ i → i < s₁.state.arena.size →
      ∃ r₁ r period T, s₁.state.arena.stream? i = some r₁ ∧ s.state.arena.stream? i = some r ∧
        r.recipe = r₁.recipe ∧ r₁.mult ≤ r.mult ∧ r.recipe.period = .ok period ∧ 1 ≤ period ∧
        Elapses (transcript calls s₁) T ∧
        ((∀ entry ∈ transcript calls s₁, 0 < entry.1.ticks → entry.2.isOk = true) →
          T = (calls.map Call.ticks).sum) ∧
        r.next.getD period = period - T % period ∧
        ∀ p, totalReported i p (transcript calls s₁) ≤ r.recipe.yieldOf p * r.mult * (T / period)) := by
  intro s₀ s₁ s
  have hs₀ : s₀.state.WellFormed := wellFormed_run (wellFormed_empty config) before
  have hs₁ : s₁.state.WellFormed := wellFormed_after hs₀ _
  refine ⟨fun ticks => ?_, fun hi hlt => ?_⟩
  · exact answers_tick (wellFormed_run hs₁ calls) ticks
  obtain ⟨r₁, hr₁⟩ : ∃ r₁, s₁.state.arena.stream? i = some r₁ := ⟨_, List.getElem?_eq_getElem hlt⟩
  obtain ⟨period, hperiod, hpos⟩ := hs₁.arena.ready.period i r₁ hr₁
  have hnext : r₁.next = none := by
    have hkeeps : Action.Keeps (UnclockedFrom s₀.state.arena.size) (Call.registerStream name definition).act :=
      Action.Keeps.bind (keeps_unclockedFrom_registerStream _ name definition) fun _ => Action.Keeps.pure
    refine hkeeps.after (fun j r hj hr => ?_) i r₁ hi hr₁
    exact absurd (List.getElem?_eq_some_iff.1 hr).1 (Nat.not_lt.2 hj)
  have hstart : PacedAt i r₁ period 0 (fun _ => 0) s₁.state := by
    refine ⟨r₁, hr₁, rfl, Int.le_refl _, by rw [hnext]; simp, fun p => ?_⟩
    simp
  obtain ⟨T, helapses, r, hr, hpaced⟩ := hstart.run hs₁ hperiod hpos calls
  simp only [Nat.zero_add, Int.zero_add] at hpaced
  refine ⟨r₁, r, period, T, hr₁, hr, hpaced.recipe, hpaced.mult_le, hpaced.recipe ▸ hperiod, hpos, helapses, ?_,
    hpaced.countdown, hpaced.units_le⟩
  intro hanswers
  have htotal := congrArg (List.map Call.ticks) (map_fst_transcript calls s₁)
  rw [List.map_map] at htotal
  exact htotal ▸ helapses.eq_sum hanswers

/-- A smelter that takes four ticks, as it has just been registered behind its mine. -/
def smelting : Logged Factory :=
  (Call.registerStream "smelter" (.call (.text "smelting") [.stream (.text "mine")] (.int 1))).act.after
    (built ((smeltery 3 4).take 5))

/-- What is called on the smelter: it is given a neighbour, loses room for ore and is balanced between five
ticks and six more. -/
def interrupted : List Call :=
  thief ++ [.tick (.int 5), .tick (.int (-1)), .setBuffer "smelter" "ore" (.int 2), .solve "smelter", .tick (.int 6)]

/-- After eleven ticks the smelter is one tick from its third boundary, and has reported two iron at most. -/
theorem run_keeps_pace_smelting :
    ∃ r, (run interrupted smelting).state.arena.stream? 1 = some r ∧ r.next.getD 4 = 1 ∧
      totalReported 1 ⟨1, 0⟩ (transcript interrupted smelting) ≤ 2 := by
  obtain ⟨r₁, r, period, T, hr₁, hr, hrecipe, -, hperiod, -, -, htotal, hnext, hunits⟩ :=
    (run_keeps_pace {} .info ((smeltery 3 4).take 5) "smelter"
      (.call (.text "smelting") [.stream (.text "mine")] (.int 1)) interrupted).2
      (show _ ≤ 1 by decide +kernel) (by decide +kernel)
  have hT : T = 11 := (htotal (by decide +kernel)).trans (by decide +kernel)
  change (run interrupted smelting).state.arena.stream? 1 = some r at hr
  have hfigures : ((run interrupted smelting).state.arena.stream? 1).map
      (fun r => (r.recipe.period.toOption, r.recipe.yieldOf ⟨1, 0⟩, r.mult)) = some (some 4, 1, 1) := by
    decide +kernel
  rw [hr, Option.map_some, Option.some.injEq, Prod.mk.injEq, Prod.mk.injEq, hperiod] at hfigures
  obtain ⟨hfour, hyield, hmult⟩ := hfigures
  obtain rfl : period = 4 := Option.some.inj hfour
  subst hT
  refine ⟨r, hr, hnext, (hunits ⟨1, 0⟩).trans ?_⟩
  rw [hyield, hmult]
  decide

end Factory

end Conveyor
