-- SUMMARY: In a factory as it was registered, a stream that is fully supplied sustains its throughput from the first ticks on.
import Conveyor.Proofs.Factory.Refusals
import Conveyor.Proofs.Sustained

/-!
# Fully supplied streams of a factory

Registration leaves empty buffers that hold a few cycles each. From there, tick by tick, a stream that
takes everything from leaves of its own completes a cycle at each boundary, once they have made a first
cycle of everything. That the leaves are fast enough is not all it takes: what a stream draws at one
boundary is at most what their buffers hold, so one that comes seldom, for much at a time, gets less than
they could make.
-/

namespace Conveyor.Factory

variable {config : Config} {m k lead c passed : Nat} {a₀ : Arena} {x : Placed} {source : Product → Placed}

/-! ## Registered factories -/

/-- The call registers something. -/
def Call.registers : Call → Bool
  | registerProduct .. | registerRecipe .. | registerStream .. => true
  | _ => false

/-- Every stream of the factory is as it was registered. -/
structure Fresh (config : Config) (f : Factory) : Prop where
  settings : f.config = config
  streams : ∀ i s, f.arena.stream? i = some s →
    s = Stream.fresh s.recipe s.inputs s.mult config.bufferMultiplier

theorem Fresh.truncate {f : Factory} (hf : Fresh config f) (length : Nat) : Fresh config (f.truncate length) where
  settings := hf.settings
  streams i s hs := hf.streams i s (Arena.stream?_of_truncate hs).2

theorem keeps_fresh_act {call : Call} (h : call.registers = true) : Action.Keeps (Fresh config) call.act := by
  cases call with
  | registerProduct name module =>
    refine Action.Keeps.bind ?_ fun _ => Action.Keeps.pure
    exact keeps_registerProduct name module fun _ hf _ _ _ _ => ⟨hf.settings, hf.streams⟩
  | registerRecipe name inputs outputs period =>
    refine Action.Keeps.bind ?_ fun _ => Action.Keeps.pure
    exact keeps_registerRecipe name inputs outputs period fun _ hf _ _ _ => ⟨hf.settings, hf.streams⟩
  | registerStream name definition =>
    refine Action.Keeps.bind ?_ fun _ => Action.Keeps.pure
    refine keeps_registerStream name definition ?_ (fun _ _ _ hf => hf.truncate _) ?_
    · intro f hf recipeName recipe _ slots mult label _ _
      refine ⟨hf.settings, fun i s hs => ?_⟩
      rcases Arena.stream?_append.1 hs with hs | ⟨_, rfl⟩
      · exact hf.streams i s hs
      · exact hf.settings ▸ rfl
    · exact fun _ hf _ => ⟨hf.settings, hf.streams⟩
  | _ => cases h

theorem fresh_run {calls : List Call} (h : ∀ call ∈ calls, call.registers = true) (least : Level) :
    Fresh config (run calls { state := empty config, least }).state :=
  run_keeps_of_forall (fun call hcall => keeps_fresh_act (h call hcall)) ⟨rfl, nofun⟩

/-! ## Tick by tick -/

/-- So many calls of one tick each, and all that they report. -/
def tickByTick (n : Nat) : Action Factory (List StreamTick) := do
  let reports ← (List.replicate n (Value.int 1)).mapM tick
  return reports.flatten

theorem wp_tick {st : Logged Factory} (hm : st.state.config.bufferMultiplier = m)
    (horder : st.state.config.tickOrder = .suppliersFirst) (hsetup : Arena.Sustainable m k lead a₀ x source)
    (h : Arena.Sustains m k lead a₀ x source (fun _ => passed) c st.state.arena) :
    (tick (.int 1)).wp
      (fun reports t => t.least = st.least ∧ t.state.config = st.state.config ∧ ∃ j,
        Arena.Sustains m k lead a₀ x source (fun _ => passed + 1) (c + j) t.state.arena ∧
        ∀ p, StreamTick.made x.index p reports = j * x.yield p)
      (fun f _ => f = .tooManyDigits ∧ st.least.rank ≤ Level.debug.rank) st := by
  have hticks : requireInt .tickCount none 0 (.int 1) = .ok 1 := rfl
  refine Action.wp.bind_ok hticks (Action.wp.bind_current (Action.wp.focus ?_))
  rw [hm, horder]
  let inner : Logged Arena := { st with state := st.state.arena }
  have hinner : Arena.Sustains m k lead a₀ x source (fun _ => passed) c inner.state := h
  refine (hinner.wp_tick hsetup).weaken ?_ fun _ _ hf => hf
  exact fun reports t ⟨hleast, hrest⟩ => ⟨hleast, rfl, hrest⟩

theorem wp_ticks {st : Logged Factory} (hm : st.state.config.bufferMultiplier = m)
    (horder : st.state.config.tickOrder = .suppliersFirst) (hsetup : Arena.Sustainable m k lead a₀ x source)
    (h : Arena.Sustains m k lead a₀ x source (fun _ => passed) c st.state.arena) (n : Nat) :
    ((List.replicate n (Value.int 1)).mapM tick).wp
      (fun reports t => ∃ j, Arena.Sustains m k lead a₀ x source (fun _ => passed + n) (c + j) t.state.arena ∧
        ∀ p, StreamTick.made x.index p reports.flatten = j * x.yield p)
      (fun f _ => f = .tooManyDigits ∧ st.least.rank ≤ Level.debug.rank) st := by
  induction n generalizing st passed c with
  | zero => exact Action.wp.pure ⟨0, h, fun p => by simp [StreamTick.made]⟩
  | succ n ih =>
    rw [List.replicate_succ, List.mapM_cons]
    refine Action.wp.bind ((wp_tick hm horder hsetup h).weaken ?_ fun _ _ hf => hf)
    rintro reports t ⟨hleast, hconfig, j, hj, hmade⟩
    refine Action.wp.bind ((ih (hconfig ▸ hm) (hconfig ▸ horder) hj).weaken ?_ fun f _ hf => hleast ▸ hf)
    rintro rest t' ⟨j', hj', hmade'⟩
    have hpassed : passed + (n + 1) = passed + 1 + n := by omega
    refine Action.wp.pure ⟨j + j', ?_, fun p => ?_⟩
    · rw [hpassed, ← Nat.add_assoc]
      exact hj'
    · rw [List.flatten_cons, StreamTick.made_append, hmade, hmade', Nat.cast_add, Int.add_mul]

/-- A stream that takes everything from leaves of its own, which yield it as fast as the stream needs it,
completes `k` cycles within `k + lead` periods from the start, where `lead` periods are enough for a first
cycle of each leaf: provided that its buffers and theirs hold so much, and that no stream draws from what it
has drawn itself. -/
theorem ticks_sustain {calls : List Call} {least : Level} (hcalls : ∀ call ∈ calls, call.registers = true)
    (hm : config.bufferMultiplier = m) (horder : config.tickOrder = .suppliersFirst) (hk : k ≤ m)
    (hown : (run calls { state := empty config, least }).state.arena.OwnLeaves x source)
    (huntapped : (run calls { state := empty config, least }).state.arena.Untapped x)
    (hlead : ∀ p ∈ x.inputs, (source p).period ≤ lead * x.period)
    (hfills : ∀ p ∈ x.inputs, k * x.need p ≤ (k + lead) * (m * (source p).yield p)) :
    let s := run calls { state := empty config, least }
    let ticks := tickByTick ((k + lead) * x.period)
    Arena.AnswersUnlessLong s.least (ticks.outcome s) ∧
      ∀ reports, ticks.outcome s = .ok reports → ∀ p, k * x.yield p ≤ StreamTick.made x.index p reports := by
  intro s ticks
  have hfresh : Fresh config s.state := fresh_run hcalls least
  have hsetup : Arena.Sustainable m k lead s.state.arena x source :=
    ⟨(wellFormed_run (wellFormed_empty config) calls).arena, hown, huntapped, hk, hlead, hfills⟩
  have hstart := Arena.Sustains.start hsetup (hm ▸ hfresh.streams)
  rw [← hfresh.settings] at hm horder
  have hwp : ticks.wp (fun reports _ => ∀ p, k * x.yield p ≤ StreamTick.made x.index p reports)
      (fun f _ => f = .tooManyDigits ∧ s.least.rank ≤ Level.debug.rank) s := by
    refine Action.wp.bind ((wp_ticks hm horder hsetup hstart _).weaken ?_ fun _ _ hf => hf)
    rintro reports t ⟨j, hj, hmade⟩
    refine Action.wp.pure fun p => ?_
    have hle : k ≤ j := by
      have hahead := hj.ahead
      rw [Nat.zero_add, Nat.zero_add, Nat.mul_div_cancel _ hsetup.period_pos] at hahead
      omega
    rw [hmade]
    exact mul_le_mul_of_nonneg_right (by exact_mod_cast hle) (hsetup.taker_yield_nonneg p)
  exact ⟨fun f hf => hwp.of_outcome_error hf, fun reports hreports => hwp.of_outcome_ok hreports⟩

/-! ## Smelters -/

/-- A mine that digs so many ore in as many ticks, and a smelter that takes so many in as many ticks. -/
def smeltery (dug taken : Nat) : List Call :=
  [.registerProduct "ore" "factory", .registerProduct "iron" "factory",
    .registerRecipe "mining" (.list []) (.list [.part (.text "ore") (.int dug)]) (.int dug),
    .registerRecipe "smelting" (.list [.part (.text "ore") (.int taken)]) (.list [.text "iron"]) (.int taken),
    .registerStream "mine" (.call (.text "mining") [] (.int 1)),
    .registerStream "smelter" (.call (.text "smelting") [.stream (.text "mine")] (.int 1))]

/-- The mine of a smeltery. -/
def mine (rest : Nat) : Placed where
  index := 0
  stream := Stream.fresh (Recipe.every (rest + 1) (Int.succ_ofNat_pos rest) [] [⟨⟨0, 0⟩, rest + 1⟩]) [] 1 8
  period := rest + 1

/-- The smelter of a smeltery. -/
def smelter (rest : Nat) : Placed where
  index := 1
  stream := Stream.fresh (Recipe.every (rest + 1) (Int.succ_ofNat_pos rest) [⟨⟨0, 0⟩, rest + 1⟩] [⟨⟨1, 0⟩, 1⟩])
    [⟨⟨0, 0⟩, 0⟩] 1 8
  period := rest + 1

/-- A new factory after some calls. -/
def built (calls : List Call) : Logged Factory := run calls { state := empty {}, least := .info }

/-- Three ore in three ticks are enough for a smelter that takes four in four. -/
theorem ticks_sustain_smeltery :
    ∃ reports, (tickByTick 36).outcome (built (smeltery 3 4)) = .ok reports ∧
      8 ≤ StreamTick.made 1 ⟨1, 0⟩ reports := by
  obtain ⟨hanswers, hsustains⟩ := @ticks_sustain {} 8 8 1 (smelter 3) (fun _ => mine 2) (smeltery 3 4) .info
    (by decide) rfl rfl (by decide) (by decide +kernel) (by decide +kernel) (by decide) (by decide)
  obtain ⟨reports, hreports⟩ := hanswers.exists_ok (by decide +kernel)
  exact ⟨reports, hreports, hsustains reports hreports ⟨1, 0⟩⟩

/-- A press that takes ore from the smelter. -/
def thief : List Call :=
  [.registerProduct "brick" "factory",
    .registerRecipe "pressing" (.list [.part (.text "ore") (.int 8)]) (.list [.text "brick"]) (.int 1),
    .registerStream "press" (.call (.text "pressing") [.stream (.text "smelter")] (.int 1))]

/-- The smelter has no less than all of its efficiency. -/
def fullyEfficient (s : Logged Factory) : Bool :=
  match s.state.efficiency "smelter" with
  | .ok e => e == 1.0
  | .error _ => false

/-- Rates are not all that counts. A smelter that takes seventeen ore at a time from a mine whose buffer
holds eight, and one whose ore is taken away by a press, are both supplied as fast as they need it, and
both have done nothing after two periods. -/
theorem ticks_leave_idle :
    ((built (smeltery 1 17)).state.arena.OwnLeaves (smelter 16) (fun _ => mine 0) ∧
      fullyEfficient (built (smeltery 1 17)) = true ∧
      ∃ reports, (tickByTick ((1 + 1) * 17)).outcome (built (smeltery 1 17)) = .ok reports ∧
        StreamTick.made 1 ⟨1, 0⟩ reports = 0) ∧
    ((built (smeltery 3 4 ++ thief)).state.arena.OwnLeaves (smelter 3) (fun _ => mine 2) ∧
      fullyEfficient (built (smeltery 3 4 ++ thief)) = true ∧
      ∃ reports, (tickByTick ((1 + 1) * 4)).outcome (built (smeltery 3 4 ++ thief)) = .ok reports ∧
        StreamTick.made 1 ⟨1, 0⟩ reports = 0) := by
  have hidle (n : Nat) (s : Logged Factory) (h : (match (tickByTick n).outcome s with
      | .ok reports => decide (StreamTick.made 1 ⟨1, 0⟩ reports = 0)
      | .error _ => false) = true) :
      ∃ reports, (tickByTick n).outcome s = .ok reports ∧ StreamTick.made 1 ⟨1, 0⟩ reports = 0 := by
    cases hreports : (tickByTick n).outcome s with
    | error f => rw [hreports] at h; cases h
    | ok reports =>
      rw [hreports] at h
      exact ⟨reports, rfl, of_decide_eq_true h⟩
  refine ⟨⟨by decide +kernel, by decide +kernel, hidle _ _ ?_⟩, by decide +kernel, by decide +kernel, hidle _ _ ?_⟩
  · decide +kernel
  · decide +kernel

end Conveyor.Factory
