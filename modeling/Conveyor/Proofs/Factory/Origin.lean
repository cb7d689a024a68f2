-- SUMMARY: In a factory that was built and driven by calls, a stream that a product cannot get to and that needs it never runs.
import Conveyor.Proofs.Factory.Calls
import Conveyor.Proofs.Factory.WellFormed
import Conveyor.Proofs.Origin

/-!
# Starved streams of a factory

Registration appends streams with empty buffers, so at first there is no stock anywhere; from then on
stock is only where its product can get. What a supplier makes is not all that it hands on: a stream
also draws what its supplier has drawn itself, so a product gets further than one binding.
-/

namespace Conveyor

namespace Arena

/-! ## Arenas that are built up -/

/-- Streams on positive amounts, bound to earlier ones, hold products only where these can get. -/
structure Supplied (a : Arena) : Prop where
  bindsEarlier : a.BindsEarlier
  running : a.Running
  reaches : ∀ i p, 0 < a.held i p → a.Reaches p i

variable {a b : Arena} {s : Stream} {i : Nat} {p : Product}

theorem Supplied.sourced (h : a.Supplied) : a.Sourced a := ⟨.refl a, h.reaches⟩

theorem Sourced.supplied (h : a.Sourced b) (ha : a.Supplied) : b.Supplied where
  bindsEarlier := h.raised.bindsEarlier ha.bindsEarlier
  running := h.raised.running ha.running
  reaches i p hheld := (h.reaches i p hheld).mono h.raised.stream

/-- Stream `i` needs a product that none of its suppliers makes, so it is found to have no efficiency. -/
def Unsupplied (a : Arena) (i : Nat) (p : Product) : Prop :=
  ∃ s, a.stream? i = some s ∧ p ∈ s.recipe.inputProducts ∧ ∀ u ∈ s.suppliers, ∀ t,
    a.stream? u = some t → p ∉ t.recipe.outputs.map Part.product

/-- A product that nobody makes out of something else gets nowhere. -/
theorem not_reaches (h : ∀ s ∈ a.streams, p ∈ s.recipe.outputs.map Part.product →
    p ∈ s.recipe.inputProducts) (i : Nat) : ¬ a.Reaches p i := by
  intro hreaches
  induction hreaches with
  | made stream output input => exact input (h _ (List.mem_of_getElem? stream) output)
  | drawn _ _ _ _ ih => exact ih

theorem Reaches.append (h : a.Reaches p i) (s : Stream) : Reaches ⟨a.streams ++ [s]⟩ p i :=
  h.mono fun _ t ht => ⟨t, stream?_append.2 (.inl ht), rfl, rfl, Int.le_refl _⟩

theorem Supplied.append (h : a.Supplied) (hs : s.recipe.Positive ∧ 1 ≤ s.mult)
    (hearlier : ∀ slot ∈ s.inputs, slot.supplier < a.size) (hempty : ∀ p, s.stock p = 0) :
    Supplied ⟨a.streams ++ [s]⟩ where
  bindsEarlier := bindsEarlier_iff.2 fun i t ht => by
    rcases stream?_append.1 ht with ht | ⟨rfl, rfl⟩
    · exact bindsEarlier_iff.1 h.bindsEarlier i t ht
    · exact hearlier
  running i t ht := by
    rcases stream?_append.1 ht with ht | ⟨_, rfl⟩
    · exact h.running i t ht
    · exact hs
  reaches i p hheld := by
    cases ht : stream? ⟨a.streams ++ [s]⟩ i with
    | none =>
      rw [held, ht] at hheld
      exact absurd hheld (Int.lt_irrefl 0)
    | some t =>
      rw [held_eq ht] at hheld
      rcases stream?_append.1 ht with ht | ⟨_, rfl⟩
      · exact (h.reaches i p (held_eq ht p ▸ hheld)).append s
      · exact absurd hheld (hempty p ▸ Int.lt_irrefl 0)

theorem Reaches.truncate (h : a.Reaches p i) (ha : a.BindsEarlier) {n : Nat} (hi : i < n) :
    (a.truncate n).Reaches p i := by
  induction h with
  | made stream output input =>
    exact .made ((stream?_truncate a n _).trans ((if_pos hi).trans stream)) output input
  | drawn stream mem product _ ih =>
    have hlt := ha.lt ⟨_, stream, _, mem, rfl⟩
    exact .drawn ((stream?_truncate a n _).trans ((if_pos hi).trans stream)) mem product
      (ih (Nat.lt_trans hlt hi))

theorem Supplied.truncate (h : a.Supplied) (n : Nat) : (a.truncate n).Supplied where
  bindsEarlier := bindsEarlier_iff.2 fun i s hs => bindsEarlier_iff.1 h.bindsEarlier i s (stream?_of_truncate hs).2
  running i s hs := h.running i s (stream?_of_truncate hs).2
  reaches i p hheld := by
    cases hs : (a.truncate n).stream? i with
    | none =>
      rw [held, hs] at hheld
      exact absurd hheld (Int.lt_irrefl 0)
    | some s =>
      obtain ⟨hlt, hs'⟩ := stream?_of_truncate hs
      rw [held_eq hs] at hheld
      exact (h.reaches i p (held_eq hs' p ▸ hheld)).truncate h.bindsEarlier hlt

end Arena

theorem Stream.stock_insert_resize_le {s : Stream} {p : Product} {b : Buffer}
    (hb : s.buffers.get? p = some b) (capacity : Int) (q : Product) :
    stock { s with buffers := s.buffers.insert p (b.resize capacity) } q ≤ s.stock q := by
  unfold stock
  rw [Table.get?_insert]
  split
  next hpq =>
    rw [← hpq, hb]
    exact b.resize_current_le capacity
  next => exact Int.le_refl _

theorem Stream.stock_fresh (recipe : Recipe) (slots : List Slot) (mult m : Int) (p : Product) :
    (fresh recipe slots mult m).stock p = 0 := by
  rw [stock, fresh, Table.get?_mapValues]
  cases recipe.outputTotals.get? p <;> rfl

namespace Factory

/-! ## Calls -/

/-- Recipes have positive amounts, and streams hold products only where these can get. -/
structure Supplied (f : Factory) : Prop where
  arena : f.arena.Supplied
  recipes : ∀ name recipe, f.recipes.get? name = some recipe → recipe.Positive

theorem supplied_empty (config : Config) : (empty config).Supplied where
  arena := ⟨fun _ he => absurd he List.not_mem_nil, fun _ _ => nofun, fun _ _ => nofun⟩
  recipes _ _ := nofun

theorem supplied_closedUnderCalls : ClosedUnderCalls Supplied where
  registerProduct name module := keeps_registerProduct name module fun _ hf _ _ _ _ =>
    ⟨hf.arena, hf.recipes⟩
  registerRecipe name inputs outputs period := by
    refine keeps_registerRecipe name inputs outputs period fun f hf recipe hrecipe _ => ⟨hf.arena, ?_⟩
    intro other r hr
    rw [Table.get?_insert] at hr
    split at hr
    · exact Option.some.inj hr ▸ hrecipe
    · exact hf.recipes other r hr
  registerStream name definition := by
    refine keeps_registerStream name definition ?_ ?_ ?_
    · intro f hf recipeName recipe hrecipe slots mult label hearlier hmult
      refine ⟨hf.arena.append ⟨hf.recipes recipeName recipe hrecipe, hmult⟩ hearlier ?_, hf.recipes⟩
      exact Stream.stock_fresh recipe slots mult f.config.bufferMultiplier
    · exact fun _ f _ hf => ⟨hf.arena.truncate _, hf.recipes⟩
    · exact fun f hf index => ⟨hf.arena, hf.recipes⟩
  setBuffer stream product capacity := by
    refine keeps_setBuffer stream product capacity fun f hf i s hs p b hb capacity _ => ?_
    refine ⟨Arena.Sourced.supplied (.modify_of_le hf.arena.sourced fun t ht => ?_) hf.arena, hf.recipes⟩
    refine ⟨⟨rfl, rfl, Int.le_refl _⟩, fun q hq => ?_⟩
    obtain rfl := Option.some.inj (hs.symm.trans ht)
    exact Int.lt_of_lt_of_le hq (Stream.stock_insert_resize_le hb capacity q)
  solve stream :=
    keeps_solve stream (fun _ hf => hf.arena.sourced)
      (fun f _ i ε => (Arena.sourced_closedUnderRaise f.arena).keeps_solve i ε) fun _ hf _ ha =>
        ⟨ha.supplied hf.arena, hf.recipes⟩
  tick ticks :=
    keeps_tick ticks (fun _ hf => hf.arena.sourced)
      (fun _ hf n => (Arena.sourced_closedUnderTime hf.arena.running _).keeps_tick n _) fun _ hf _ ha =>
        ⟨ha.supplied hf.arena, hf.recipes⟩
  setOrder _ hf _ := ⟨hf.arena, hf.recipes⟩

/-- Whatever calls were made to a new factory, a tick reports nothing of a stream that needs a product
which cannot get to it: no binding for the product leads back to a stream that makes it. -/
theorem tick_starved (config : Config) (least : Level) (calls : List Call) {ticks : Value}
    {reports : List StreamTick} {t : Logged Factory}
    (h : tick ticks (run calls { state := empty config, least }) = .ok reports t) :
    ∀ report ∈ reports,
      (run calls { state := empty config, least }).state.arena.Starved report.index →
        ∀ units ∈ report.produced.values, units = 0 := by
  have hsupplied : (run calls { state := empty config, least }).state.Supplied :=
    run_keeps supplied_closedUnderCalls.keeps_act calls (supplied_empty config)
  revert h hsupplied
  generalize run calls { state := empty config, least } = s
  intro h hs
  have hyields : Action.Yields (· = s.state) (tick ticks) fun reports _ => ∀ report ∈ reports,
      s.state.arena.Starved report.index → ∀ units ∈ report.produced.values, units = 0 := by
    refine Action.Yields.bind_lift fun n _ => Action.Yields.bind_current fun f hf => ?_
    subst f
    refine Action.Triple.focus (S := fun reports _ => ∀ report ∈ reports,
      s.state.arena.Starved report.index → ∀ units ∈ report.produced.values, units = 0)
      (F := fun _ _ => True) ?_ (fun _ _ _ _ h => h) fun _ _ _ _ _ => trivial
    rintro f rfl
    exact (Arena.yields_tick_starved hs.arena.running n _).weaken (fun _ ha => ha ▸ hs.arena.sourced)
      (fun _ _ h => h.2)
  exact hyields.of_eq_ok rfl h

/-- A mine, and a kiln that is to take clay from it. -/
def kiln : List Call :=
  [.registerProduct "ore" "factory", .registerProduct "clay" "factory",
    .registerProduct "brick" "factory",
    .registerRecipe "mining" (.list []) (.list [.text "ore"]) (.int 1),
    .registerRecipe "baking" (.list [.text "clay"]) (.list [.text "brick"]) (.int 1),
    .registerStream "mine" (.call (.text "mining") [] (.int 1)),
    .registerStream "kiln" (.call (.text "baking") [.stream (.text "mine")] (.int 1))]

/-- Nobody makes clay, so the kiln never runs. -/
theorem tick_starved_kiln :
    ∃ reports t, tick (.int 3) (run kiln { state := empty {}, least := .debug }) = .ok reports t ∧
      ∀ report ∈ reports, report.index = 1 → ∀ units ∈ report.produced.values, units = 0 := by
  have hanswers : (match tick (.int 3) (run kiln { state := empty {}, least := .debug }) with
      | .ok _ _ => true
      | .error _ _ => false) = true := by
    decide +kernel
  have hneeds : ((run kiln { state := empty {}, least := .debug }).state.arena.stream? 1).any
      (fun s => decide (⟨1, 0⟩ ∈ s.recipe.inputProducts)) = true := by
    decide +kernel
  have hnobody : ∀ s ∈ (run kiln { state := empty {}, least := .debug }).state.arena.streams,
      (⟨1, 0⟩ : Product) ∈ s.recipe.outputs.map Part.product → ⟨1, 0⟩ ∈ s.recipe.inputProducts := by
    decide +kernel
  obtain ⟨s, hs, hclay⟩ := (Option.any_eq_true _ _).1 hneeds
  cases h : tick (.int 3) (run kiln { state := empty {}, least := .debug }) with
  | error f t => rw [h] at hanswers; cases hanswers
  | ok reports t =>
    refine ⟨reports, t, rfl, fun report hreport hindex => ?_⟩
    refine tick_starved {} .debug kiln h report hreport (hindex ▸ ?_)
    exact ⟨s, hs, ⟨1, 0⟩, of_decide_eq_true hclay, Arena.not_reaches hnobody 1⟩

/-- A mine, a smelter of its ore, and a press that is to take ore from the smelter. -/
def press : List Call :=
  [.registerProduct "ore" "factory", .registerProduct "iron" "factory",
    .registerProduct "brick" "factory",
    .registerRecipe "mining" (.list []) (.list [.part (.text "ore") (.int 2)]) (.int 1),
    .registerRecipe "smelting" (.list [.text "ore"]) (.list [.text "iron"]) (.int 1),
    .registerRecipe "pressing" (.list [.text "ore"]) (.list [.text "brick"]) (.int 1),
    .registerStream "mine" (.call (.text "mining") [] (.int 1)),
    .registerStream "smelter" (.call (.text "smelting") [.stream (.text "mine")] (.int 1)),
    .registerStream "press" (.call (.text "pressing") [.stream (.text "smelter")] (.int 1))]

/-- The smelter makes no ore, and the press has no efficiency. It takes the ore that the smelter has
drawn for itself, and runs all the same. -/
theorem tick_feeds_unsupplied_press :
    (run press { state := empty {}, least := .debug }).state.arena.Unsupplied 2 ⟨0, 0⟩ ∧
      (match (run press { state := empty {}, least := .debug }).state.efficiency "press" with
        | .ok e => e == 0.0
        | .error _ => false) = true ∧
      ∃ reports t, tick (.int 1) (run press { state := empty {}, least := .debug }) = .ok reports t ∧
        ∃ report ∈ reports, report.index = 2 ∧ report.produced.values = [1] := by
  have hunsupplied : ((run press { state := empty {}, least := .debug }).state.arena.stream? 2).any
      (fun s => decide (⟨0, 0⟩ ∈ s.recipe.inputProducts ∧ ∀ u ∈ s.suppliers,
        ((run press { state := empty {}, least := .debug }).state.arena.stream? u).all
          fun t => decide (⟨0, 0⟩ ∉ t.recipe.outputs.map Part.product))) = true := by
    decide +kernel
  have hreports : (match tick (.int 1) (run press { state := empty {}, least := .debug }) with
      | .ok reports _ => reports.any fun r => r.index = 2 ∧ r.produced.values = [1]
      | .error _ _ => false) = true := by
    decide +kernel
  refine ⟨?_, by decide +kernel, ?_⟩
  · obtain ⟨s, hs, hdecided⟩ := (Option.any_eq_true _ _).1 hunsupplied
    obtain ⟨hneeds, hnone⟩ := of_decide_eq_true hdecided
    refine ⟨s, hs, hneeds, fun u hu t ht => ?_⟩
    exact of_decide_eq_true ((Option.all_eq_true _ _).1 (hnone u hu) t ht)
  · cases h : tick (.int 1) (run press { state := empty {}, least := .debug }) with
    | error f t => rw [h] at hreports; cases hreports
    | ok reports t =>
      rw [h] at hreports
      obtain ⟨report, hmem, hreport⟩ := List.any_eq_true.1 hreports
      exact ⟨reports, t, rfl, report, hmem, of_decide_eq_true hreport⟩

end Factory

end Conveyor
