-- SUMMARY: A run of the program does all that its options ask for, or it is refused before anything is printed.
import Conveyor.CommandLine.Place
import Conveyor.Proofs.CommandLine.Session
import Conveyor.Proofs.Demo.Commands
import Conveyor.Proofs.Setting.List

/-!
# All or nothing

All that can be wrong with the options shows before the first line is printed: when ticks and steps are read,
when capacities are given and when supplies are balanced. From there on nothing is refused and nothing breaks
down, whatever capacities were given, whatever was balanced and however long time is passed.
-/

namespace Conveyor

/-! ## Settings -/

namespace Setting

/-- An item gives a capacity to a product at a stream that makes it. -/
def IsRight (item : List Char) : Prop := ∃ s, parseChars item = .ok s ∧ Demo.Makes s.stream s.product

instance : DecidablePred IsRight := fun item =>
  decidable_of_iff (∃ s ∈ (parseChars item).toOption, (s.stream, s.product) ∈ Demo.made) (by
    simp only [IsRight, Demo.makes_iff, Option.mem_def, Result.toOption_eq_some])

/-- Every capacity in a list of settings is short enough for what it can hold to be written. -/
def Short (text : String) : Prop := ∀ item ∈ items text, ∀ s ∈ (parseChars item).toOption, s.capacity < Demo.capacityBound

instance : DecidablePred Short := fun text =>
  inferInstanceAs (Decidable (∀ item ∈ items text, ∀ s ∈ (parseChars item).toOption, s.capacity < Demo.capacityBound))

theorem Short.capacity_le {text : String} {item : List Char} {s : Setting} (h : Short text) (hitem : item ∈ items text)
    (hs : parseChars item = .ok s) : s.capacity ≤ Demo.capacityBound :=
  Int.le_of_lt (h item hitem s (Result.toOption_eq_some.2 hs))

end Setting

namespace CommandLine

open Demo (Standing Running)

namespace Session

variable {order : TickOrder} {c : Console} {text file : String} {writable : String → Prop}

theorem leastLevel_mem (verbose : Bool) : leastLevel verbose ∈ [Level.debug, .info] := by
  cases verbose <;> decide

/-- The demo factory stands and nothing has been printed. -/
structure Prepared (order : TickOrder) (c : Console) : Prop where
  standing : Standing order c.factory
  output : c.output = ""
  drawing : c.drawing = none

/-- The demo factory runs and nothing has been drawn. -/
structure Active (order : TickOrder) (c : Console) : Prop where
  running : Running order c.factory
  drawing : c.drawing = none

/-- What is left to be written goes to a path that can be written. -/
def Filed (writable : String → Prop) (c : Console) : Prop :=
  ∀ path text, c.drawing = some (path, text) → writable path

theorem Active.filed (h : Active order c) : Filed writable c := fun _ _ hdrawing =>
  nomatch h.drawing.symm.trans hdrawing

theorem Prepared.active (h : Prepared order c) : Active order c := ⟨h.standing.toRunning, h.drawing⟩

/-! ## Before anything is printed -/

/-- Capacities are given up to the first item that is wrong. -/
theorem wp_setBuffers (hc : Prepared order c) (hshort : Setting.Short text) :
    (setBuffers text).wp (fun _ d => (∀ item ∈ Setting.items text, Setting.IsRight item) ∧ Prepared order d)
      (fun f d => (∃ item ∈ Setting.items text, ¬ Setting.IsRight item) ∧ f.isValueError = true ∧ d.output = "") c := by
  unfold setBuffers
  rw [Setting.parseList_eq]
  cases hparse : (Setting.items text).mapM Setting.parseChars with
  | error e =>
    obtain ⟨item, hitem, herror⟩ := Result.exists_error_of_mapM hparse
    refine wp.throw ⟨⟨item, hitem, ?_⟩, rfl, hc.output⟩
    rintro ⟨s, hs, -⟩
    rw [herror] at hs
    cases hs
  | ok settings =>
    refine ((wp.forM (R := fun s => Demo.Makes s.stream s.product) (I := Prepared order)
      (E := fun f d => f.isValueError = true ∧ d.output = "") (fun s hs d hd => ?_) hc).weaken ?_ ?_)
    · obtain ⟨item, hitem, hs⟩ := Result.exists_of_mem_mapM hparse hs
      refine wp.perform ((Demo.wp_setBuffer { state := d.factory, least := leastLevel d.verbose } hd.standing
        (Setting.capacity_nonneg hs) (hshort.capacity_le hitem hs)).weaken (fun _ t ht => ?_) fun f _ hf => ?_)
      · exact ⟨ht.1, ht.2, hd.output, hd.drawing⟩
      · exact ⟨hf.1, hf.2, hd.output⟩
    · rintro _ d ⟨hright, hd⟩
      refine ⟨fun item hitem => ?_, hd⟩
      obtain ⟨s, hs, hparse⟩ := Result.exists_mem_of_mapM hparse hitem
      exact ⟨s, hparse, hright s hs⟩
    · rintro f d ⟨⟨s, hs, hwrong⟩, hf⟩
      obtain ⟨item, hitem, hparse⟩ := Result.exists_of_mem_mapM hparse hs
      refine ⟨⟨item, hitem, ?_⟩, hf⟩
      rintro ⟨s', hs', hright⟩
      obtain rfl := Except.ok.inj (hparse.symm.trans hs')
      exact hwrong hright

/-- Supplies are balanced up to the first stream that is none. -/
theorem wp_solve {stream : String} (hc : Prepared order c) :
    (solve stream).wp (fun _ d => (∃ i, Demo.start.streams.get? stream = some i) ∧ Prepared order d)
      (fun f d => Demo.start.streams.get? stream = none ∧ f.isValueError = true ∧ d.output = "") c := by
  have hsolve := Demo.wp_solve { state := c.factory, least := leastLevel c.verbose } stream
    hc.standing (leastLevel_mem c.verbose)
  refine wp.bind (wp.perform (hsolve.weaken (fun changes t ht => ?_) fun f t hf => ⟨hf.1, hf.2, hc.output⟩))
  have hdone : Prepared order (afterAction c t) := ⟨ht.2, hc.output, hc.drawing⟩
  refine (wp.forM_keeps (I := Prepared order) (fun change _ d hd => ?_) hdone).weaken (fun _ _ hd => ⟨ht.1, hd⟩)
    fun _ _ hf => hf.elim
  exact wp.modify ⟨hd.standing, hd.output, hd.drawing⟩

/-! ## What is printed -/

theorem wp_print (hc : Active order c) (line : String) :
    (print line).wp (fun _ => Active order) (fun _ _ => False) c :=
  wp.modify ⟨hc.running, hc.drawing⟩

theorem wp_printReports (hc : Active order c) :
    printReports.wp (fun _ => Active order) (fun _ _ => False) c := by
  refine wp.bind_get (wp.forM_keeps (fun name hname d hd => ?_) hc)
  have hkeys : name ∈ d.factory.streams.keys := by
    rw [hd.running.streams_eq, ← hc.running.streams_eq]
    exact hname
  obtain ⟨lines, hlines⟩ := hd.running.exists_report hkeys
  exact wp.bind_query hlines (wp.forM_keeps (fun line _ e he => wp_print he line) hd)

theorem wp_printTick (hc : Active order c) {r : StreamTick} (hr : r.Legible c.factory.arena) :
    (printTick r).wp (fun _ d => Active order d ∧ d.factory = c.factory) (fun _ _ => False) c := by
  refine wp.forM_keeps (I := fun d => Active order d ∧ d.factory = c.factory) (fun e he d hd => ?_) ⟨hc, rfl⟩
  obtain ⟨hactive, hsame⟩ := hd
  obtain ⟨p, units⟩ := e
  refine wp.ite (fun _ => ?_) fun _ => wp.pure ⟨hactive, hsame⟩
  rw [← hsame] at hr
  obtain ⟨⟨stream, hstream⟩, hproducts⟩ := hactive.running.exists_names hr
  obtain ⟨product, hproduct⟩ := hproducts _ he
  have hunits : IsWritable units := hr.units _ he
  obtain ⟨held, hheld⟩ := hactive.running.exists_buffer hr _ he
  obtain ⟨hcurrent, hmax⟩ := hactive.running.legible.isWritable_buffer hheld
  refine wp.bind_query hstream (wp.bind_query hproduct (wp.bind_ok (written_of_isWritable hunits) ?_))
  refine wp.bind_query hheld (wp.bind_ok (Buffer.written_of_isWritable hcurrent hmax) ?_)
  exact wp.modify ⟨⟨hactive.running, hactive.drawing⟩, hsame⟩

theorem wp_simulate (hc : Active order c) {ticks : Int} (hticks : 0 ≤ ticks) (first steps : Nat) :
    (simulate ticks first steps).wp (fun _ => Active order) (fun _ _ => False) c := by
  induction steps generalizing c first with
  | zero => exact wp.pure hc
  | succ steps ih =>
    refine wp.bind ((wp_print hc _).weaken (fun _ d hd => ?_) fun _ _ hf => hf)
    have htick := Demo.wp_tick { state := d.factory, least := leastLevel d.verbose } hd.running hticks
    refine wp.bind (wp.perform (htick.weaken (fun rs t ht => ?_) fun _ _ hf => hf))
    have hafter : Active order (afterAction d t) := ⟨ht.2, hd.drawing⟩
    refine wp.bind ((wp.forM_keeps (I := fun e => Active order e ∧ e.factory = t.state) (fun r hr e he => ?_)
      ⟨hafter, rfl⟩).weaken (fun _ e he => ih he.1 (first + 1)) fun _ _ hf => hf)
    exact (wp_printTick he.1 (he.2 ▸ ht.1 r hr)).weaken (fun _ _ hd => ⟨hd.1, hd.2.trans he.2⟩) fun _ _ hf => hf

/-- The demo factory is drawn, on the output or for a file. -/
theorem wp_draw (hc : Active order c) (hfile : file = "-" ∨ '\x00' ∉ file.toList ∧ writable file) :
    (draw file).wp (fun _ => Filed writable) (fun _ _ => False) c := by
  obtain ⟨drawing, hdrawing⟩ := hc.running.exists_diagram
  refine wp.bind_query hdrawing (wp.ite (fun _ => ?_) fun hdash => ?_)
  · exact (wp_print hc _).weaken (fun _ _ hd => hd.filed) fun _ _ hf => hf
  obtain ⟨hnul, hwritable⟩ := hfile.resolve_left hdash
  refine wp.ite (fun h => ?_) fun _ => wp.bind (wp.modify (wp.modify ?_))
  · rw [String.contains_char_eq, decide_eq_true_eq] at h
    exact absurd h hnul
  · rintro _ _ ⟨⟩
    exact hwritable

end Session

/-! ## Runs -/

namespace Options

variable {o : Options}

/-- No value is missing. -/
structure Given (o : Options) : Prop where
  ticks : ∃ n, o.ticks = some n
  steps : ∃ n, o.steps = some n
  order : ∃ order, o.order = some order
  solve : ∀ stream ∈ o.solve, ∃ name, stream = some name

/-- What the options ask for cannot be done. -/
inductive Wrong (o : Options) : Prop
  | ticks {n : Int} (h : o.ticks = some n) (hn : n < 0) : Wrong o
  | steps {n : Int} (h : o.steps = some n) (hn : n < 0) : Wrong o
  | malformed {item : List Char} (hitem : item ∈ Setting.items o.buffer) {e : SettingError}
      (h : Setting.parseChars item = .error e) : Wrong o
  | target {item : List Char} (hitem : item ∈ Setting.items o.buffer) {s : Setting}
      (h : Setting.parseChars item = .ok s) (hs : ¬ Demo.Makes s.stream s.product) : Wrong o
  | name {stream : String} (h : some stream ∈ o.solve) (hs : Demo.start.streams.get? stream = none) : Wrong o

instance : DecidableEq Options := fun o p =>
  decidable_of_iff (o.solve = p.solve ∧ o.buffer = p.buffer ∧ o.ticks = p.ticks ∧ o.steps = p.steps ∧
    o.order = p.order ∧ o.log = p.log ∧ o.graph = p.graph ∧ o.verbose = p.verbose) (by cases o; cases p; simp)

/-- A drawing goes to the output or to a path that can be written, if one is asked for. -/
def Drawable (writable : String → Prop) (o : Options) : Prop :=
  o.graph = "" ∨ o.graph = "-" ∨ '\x00' ∉ o.graph.toList ∧ writable o.graph

/-- A value is given, and it names no stream. -/
def IsUnknown (stream : Option String) : Prop := ∃ name ∈ stream, Demo.start.streams.get? name = none

instance : DecidablePred IsUnknown := fun stream =>
  inferInstanceAs (Decidable (∃ name ∈ stream, Demo.start.streams.get? name = none))

/-- What the steps of a session find wrong, in their order. -/
theorem wrong_iff : o.Wrong ↔ (∃ n ∈ o.ticks, n < 0) ∨ (∃ n ∈ o.steps, n < 0) ∨
    (∃ item ∈ Setting.items o.buffer, ¬ Setting.IsRight item) ∨ ∃ stream ∈ o.solve, IsUnknown stream := by
  constructor
  · intro h
    cases h with
    | ticks h hn => exact .inl ⟨_, h, hn⟩
    | steps h hn => exact .inr (.inl ⟨_, h, hn⟩)
    | malformed hitem herror =>
      refine .inr (.inr (.inl ⟨_, hitem, ?_⟩))
      rintro ⟨s, hs, _⟩
      cases hs.symm.trans herror
    | target hitem hparse hwrong =>
      refine .inr (.inr (.inl ⟨_, hitem, ?_⟩))
      rintro ⟨s, hs, hmakes⟩
      obtain rfl := Except.ok.inj (hs.symm.trans hparse)
      exact hwrong hmakes
    | name h hnone => exact .inr (.inr (.inr ⟨_, h, _, rfl, hnone⟩))
  · rintro (⟨n, h, hn⟩ | ⟨n, h, hn⟩ | ⟨item, hitem, hwrong⟩ | ⟨_, h, name, rfl, hnone⟩)
    · exact .ticks h hn
    · exact .steps h hn
    · cases hparse : Setting.parseChars item with
      | error e => exact .malformed hitem hparse
      | ok s => exact .target hitem hparse fun hs => hwrong ⟨s, hparse, hs⟩
    · exact .name h hnone

instance : Decidable o.Wrong := decidable_of_iff _ wrong_iff.symm

end Options

namespace Session

variable {o : Options} {Q : Unit → Console → Prop} {E : Fault → Console → Prop}

theorem wp.bind_amount {n : Int} {k : Nat → Session Unit} (hneg : n < 0 → E .negativeSteps c)
    (hk : 0 ≤ n → (k n.toNat).wp Q E c) : wp (liftM (amount (some n)) >>= k) Q E c := by
  unfold amount
  by_cases hn : n < 0
  · simp only [hn, if_true]
    exact wp.throw (hneg hn)
  · simp only [hn, if_false]
    exact wp.bind_ok rfl (hk (Int.not_lt.1 hn))

theorem wp_build (hfactory : c.factory = .empty { tickOrder := order }) (houtput : c.output = "")
    (hdrawing : c.drawing = none) :
    (perform Demo.build).wp (fun _ => Prepared order) (fun _ _ => False) c := by
  refine wp.perform ?_
  rw [hfactory]
  refine Action.wp.of_isOk (Demo.build_done order _).1 fun _ => ⟨?_, houtput, hdrawing⟩
  change Standing order (Demo.build.after _).state
  rw [(Demo.build_done order _).2]
  exact Demo.standing_start order

/-- The options are carried out, or one of them is found wrong before anything is printed. -/
theorem wp_run (hgiven : o.Given) (hshort : Setting.Short o.buffer) (hgraph : o.Drawable writable)
    (houtput : c.output = "") (hdrawing : c.drawing = none) :
    (run o).wp (fun _ d => ¬ o.Wrong ∧ Filed writable d) (fun f d => o.Wrong ∧ f.isValueError = true ∧ d.output = "") c := by
  obtain ⟨⟨ticks, hticks⟩, ⟨steps, hsteps⟩, ⟨order, horder⟩, hsolve⟩ := hgiven
  unfold run
  rw [hticks, hsteps, horder]
  refine wp.bind_amount (fun hneg => ⟨.ticks hticks hneg, rfl, houtput⟩) fun hpassed => ?_
  refine wp.bind_amount (fun hneg => ⟨.steps hsteps hneg, rfl, houtput⟩) fun hcounted => ?_
  refine wp.bind_ok rfl (wp.bind (wp.modify (wp.bind ?_)))
  have hbuild := wp_build (c := { c with factory := .empty { tickOrder := order } }) rfl houtput hdrawing
  refine hbuild.weaken (fun _ c hc => ?_) fun _ _ hf => hf.elim
  refine wp.bind ((wp_setBuffers hc hshort).weaken (fun _ c hc => ?_) fun f d hf => ?setting)
  case setting =>
    obtain ⟨⟨item, hitem, hwrong⟩, hf⟩ := hf
    exact ⟨Options.wrong_iff.2 (.inr (.inr (.inl ⟨item, hitem, hwrong⟩))), hf⟩
  obtain ⟨hitems, hc⟩ := hc
  refine wp.bind ((wp.forM (R := fun stream => ¬ Options.IsUnknown stream)
    (E := fun f d => f.isValueError = true ∧ d.output = "") (fun stream hstream d hd => ?solve) hc).weaken
    (fun _ c hc => ?_) fun f d hf => ?name)
  case solve =>
    obtain ⟨name, rfl⟩ := hsolve stream hstream
    refine (wp_solve hd).weaken (fun _ e he => ?_) fun f e hf => ⟨not_not.2 ⟨name, rfl, hf.1⟩, hf.2⟩
    obtain ⟨⟨i, hi⟩, he⟩ := he
    refine ⟨?_, he⟩
    rintro ⟨_, ⟨⟩, hnone⟩
    cases hi.symm.trans hnone
  case name =>
    obtain ⟨⟨stream, hstream, hwrong⟩, hf⟩ := hf
    exact ⟨Options.wrong_iff.2 (.inr (.inr (.inr ⟨stream, hstream, not_not.1 hwrong⟩))), hf⟩
  obtain ⟨hnames, hc⟩ := hc
  -- Nothing has been printed yet, and all that can be wrong has been looked at.
  have hright : ¬ o.Wrong := by
    rw [Options.wrong_iff, hticks, hsteps]
    rintro (⟨_, ⟨⟩, hneg⟩ | ⟨_, ⟨⟩, hneg⟩ | ⟨item, hitem, hwrong⟩ | ⟨stream, hstream, hunknown⟩)
    · exact Int.not_lt.2 hpassed hneg
    · exact Int.not_lt.2 hcounted hneg
    · exact hwrong (hitems item hitem)
    · exact hnames stream hstream hunknown
  refine wp.optional (fun _ => wp_printReports hc.active) hc.active fun d hd => ?_
  refine wp.optional (fun _ => wp_simulate hd (Int.natCast_nonneg _) 1 _) hd fun e he => ?_
  refine wp.ite (fun hfile => ?_) fun _ => wp.pure ⟨hright, he.filed⟩
  exact (wp_draw he (hgraph.resolve_left hfile)).weaken (fun _ _ hg => ⟨hright, hg⟩) fun _ _ hf => hf.elim

end Session

variable {write : String → Except PathError (Option String)} {args : List String} {o : Options}

theorem Session.Filed.exists_files {c : Console} (h : Session.Filed (fun path => ∃ name, write path = .ok name) c)
    (code : Nat) (output errors : String) :
    ∃ files, Outcome.filesBy write ⟨code, output, errors, c.drawing⟩ = .ok files := by
  unfold Outcome.filesBy
  cases hdrawing : c.drawing with
  | none => exact ⟨_, rfl⟩
  | some drawing =>
    obtain ⟨path, text⟩ := drawing
    obtain ⟨name, hname⟩ := h path text hdrawing
    simp only [hname]
    exact ⟨_, rfl⟩

/-- Whatever paths can be written, a run whose options are wrong ends with code 1, has printed nothing and leaves
no file; every other run does all it was asked for and ends with code 0. -/
theorem run_all_or_nothing (hparse : Options.parse args = .ok o) (hgiven : o.Given) (hshort : Setting.Short o.buffer)
    (hgraph : o.Drawable fun path => ∃ name, write path = .ok name) :
    ∃ outcome files, run args = .finished outcome ∧ outcome.filesBy write = .ok files ∧
      (o.Wrong → outcome.code = 1 ∧ outcome.output = "" ∧ files = []) ∧ (¬ o.Wrong → outcome.code = 0) := by
  have hrun := Session.wp_run (c := { factory := .empty, verbose := o.verbose }) hgiven hshort hgraph rfl rfl
  unfold run
  rw [hparse]
  rcases hrun.elim with ⟨_, d, hsession, hright, hfiled⟩ | ⟨f, d, hsession, hwrong, hvalue, houtput⟩
  · obtain ⟨files, hfiles⟩ := hfiled.exists_files 0 d.output d.errors
    simp only [hsession]
    exact ⟨_, files, rfl, hfiles, fun h => absurd h hright, fun _ => rfl⟩
  · simp only [hsession, hvalue, if_true]
    exact ⟨_, [], rfl, rfl, fun _ => ⟨rfl, houtput, rfl⟩, fun h => absurd hwrong h⟩

theorem run_all_or_nothing_demo :
    (∃ outcome, run ["--buffer=greenChips.Electronic Circuit:90", "--solve=greenChips", "-t5", "--graph=chart.dot"]
      = .finished outcome ∧ outcome.code = 0) ∧
    ∃ outcome, run ["--buffer=greenChips.Electronic Circuit:90", "--solve=greenChips", "--solve=nowhere", "-t5", "--log"]
      = .finished outcome ∧ outcome.code = 1 ∧ outcome.output = "" ∧ outcome.files = .ok [] := by
  have hshort : Setting.Short "greenChips.Electronic Circuit:90" := by decide +kernel
  constructor
  · let o : Options :=
      { buffer := "greenChips.Electronic Circuit:90", solve := [some "greenChips"], ticks := some 5, graph := "chart.dot" }
    have hparse : Options.parse
        ["--buffer=greenChips.Electronic Circuit:90", "--solve=greenChips", "-t5", "--graph=chart.dot"] = .ok o := by
      decide +kernel
    have hgraph : o.Drawable fun path => ∃ name, Place.writeAt path = .ok name :=
      .inr (.inr ⟨by decide +kernel, some "chart.dot", by decide +kernel⟩)
    obtain ⟨outcome, _, hrun, _, _, hcode⟩ :=
      run_all_or_nothing hparse ⟨⟨_, rfl⟩, ⟨_, rfl⟩, ⟨_, rfl⟩, by simp [o]⟩ hshort hgraph
    exact ⟨outcome, hrun, hcode (by decide +kernel)⟩
  · let o : Options :=
      { buffer := "greenChips.Electronic Circuit:90", solve := [some "greenChips", some "nowhere"], ticks := some 5,
        log := true }
    have hparse : Options.parse ["--buffer=greenChips.Electronic Circuit:90", "--solve=greenChips", "--solve=nowhere",
        "-t5", "--log"] = .ok o := by
      decide +kernel
    obtain ⟨outcome, _, hrun, hfiles, hwrong, _⟩ :=
      @run_all_or_nothing Place.writeAt _ _ hparse ⟨⟨_, rfl⟩, ⟨_, rfl⟩, ⟨_, rfl⟩, by simp [o]⟩ hshort (.inl rfl)
    obtain ⟨hcode, houtput, rfl⟩ := hwrong (by decide +kernel)
    exact ⟨outcome, hrun, hcode, houtput, hfiles⟩

/-- The run broke down. -/
def Result.isFailed : Result → Bool
  | .failed _ => true
  | _ => false

/-- A value that is missing names no stream, and is not refused. -/
theorem run_breaks_down :
    (Options.parse ["--solve=--"]).isOk = true ∧ ∀ outcome, run ["--solve=--"] ≠ .finished outcome := by
  have hfailed : (run ["--solve=--"]).isFailed = true := by decide +kernel
  refine ⟨by decide +kernel, fun outcome h => ?_⟩
  rw [h] at hfailed
  cases hfailed

end CommandLine

end Conveyor
