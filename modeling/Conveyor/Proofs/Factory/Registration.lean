-- SUMMARY: What registering products, recipes and streams checks, and what it changes at most.
import Conveyor.Factory.Registration
import Conveyor.Proofs.Action
import Conveyor.Proofs.Arena
import Conveyor.Proofs.Stream

/-!
# Registration, step by step

First what the checks establish, above all that the figures of a recipe are positive. Then what a
registration keeps, given what its few changes of the factory keep.
-/

namespace Conveyor

theorem Refusal.isValueError_fail {α : Type} {r : Refusal} {f : Fault} (h : (r.fail : Except Fault α) = .error f) :
    f.isValueError = true := by
  unfold Refusal.fail Fault.stop at h
  obtain rfl := Except.error.inj h
  split <;> rfl

/-- The products that the recipe is about are in the table. -/
def Recipe.Listed (products : Table String Product) (r : Recipe) : Prop :=
  ∀ part ∈ r.inputs ++ r.outputs, ∃ name, products.get? name = some part.product

namespace Factory

/-! ## Checks -/

theorem le_of_requireInt {quantity : Quantity} {owner : Option String} {minimum n : Int}
    {value : Value} (h : requireInt quantity owner minimum value = .ok n) : minimum ≤ n := by
  unfold requireInt at h
  cases hv : value.int? with
  | none => rw [hv] at h; cases h
  | some k =>
    simp only [hv] at h
    split at h
    · cases h
    · obtain rfl := Except.ok.inj h
      omega

theorem requireInt_of_le {quantity : Quantity} {owner : Option String} {minimum n : Int} (h : minimum ≤ n) :
    requireInt quantity owner minimum (.int n) = .ok n := if_neg (Int.not_lt.2 h)

theorem part_eq_ok {f : Factory} {owner : String} {value : Value} {p : Part} (h : f.part owner value = .ok p) :
    0 < p.amount ∧ ∃ name, resolve .product f.products name = .ok p.product := by
  unfold part at h
  split at h
  · obtain ⟨product, hproduct, h⟩ := Result.bind_eq_ok.1 h
    obtain rfl := Result.pure_eq_ok.1 h
    exact ⟨Int.one_pos, _, hproduct⟩
  · obtain ⟨amount, hamount, h⟩ := Result.bind_eq_ok.1 h
    obtain ⟨product, hproduct, h⟩ := Result.bind_eq_ok.1 h
    obtain rfl := Result.pure_eq_ok.1 h
    exact ⟨le_of_requireInt hamount, _, hproduct⟩
  · cases h

theorem parts_eq_ok {f : Factory} {owner : String} {value : Value} {ps : List Part}
    (h : f.parts owner value = .ok ps) :
    ∀ p ∈ ps, 0 < p.amount ∧ ∃ name, resolve .product f.products name = .ok p.product := by
  intro p hp
  unfold parts at h
  split at h
  · obtain ⟨item, _, hitem⟩ := Result.exists_of_mem_mapM h hp
    exact part_eq_ok hitem
  · cases h

theorem ofPeriod_eq_ok {period : Value} {inputs outputs : List Part} {r : Recipe}
    (h : Recipe.ofPeriod period inputs outputs = .ok r) :
    ∃ n, ∃ hn : 0 < n, period = .int n ∧ r = Recipe.every n hn inputs outputs := by
  unfold Recipe.ofPeriod at h
  split at h
  · split at h
    · exact ⟨_, ‹_›, rfl, (Except.ok.inj h).symm⟩
    · cases h
  · cases h

theorem resolve_eq_ok {α : Type} {sort : Definition} {table : Table String α} {name : String} {a : α}
    (h : table.get? name = some a) : resolve sort table (.text name) = .ok a := by
  simp only [resolve, h]

/-- A name that cannot be resolved is not in the table. -/
theorem resolve_eq_error {α : Type} {sort : Definition} {table : Table String α} {name : String} {f : Fault}
    (h : resolve sort table (.text name) = .error f) : table.get? name = none ∧ f.isValueError = true := by
  cases ha : table.get? name with
  | some a =>
    rw [resolve_eq_ok ha] at h
    cases h
  | none =>
    simp only [resolve, ha] at h
    exact ⟨rfl, Refusal.isValueError_fail h⟩

theorem get?_of_resolve {α : Type} {sort : Definition} {table : Table String α} {name : Value}
    {a : α} (h : resolve sort table name = .ok a) :
    ∃ s, name = .text s ∧ table.get? s = some a := by
  unfold resolve at h
  split at h
  next s =>
    cases hs : table.get? s with
    | none => rw [hs] at h; cases h
    | some b =>
      rw [hs] at h
      exact ⟨s, rfl, Except.ok.inj h ▸ hs⟩
  · split at h <;> cases h

/-- The recipe that registration makes of its parts has positive amounts of registered products. -/
theorem every_of_parts {f : Factory} {owner : String} {value value' : Value} {inputs outputs : List Part} {n : Int}
    (hn : 0 < n) (hinputs : f.parts owner value = .ok inputs) (houtputs : f.parts owner value' = .ok outputs) :
    (Recipe.every n hn inputs outputs).Positive ∧ (Recipe.every n hn inputs outputs).Listed f.products := by
  have hlisted {value : Value} {ps : List Part} (h : f.parts owner value = .ok ps) :
      ∀ part ∈ ps, ∃ name, f.products.get? name = some part.product := fun part hpart =>
    let ⟨_, _, hresolve⟩ := parts_eq_ok h part hpart
    let ⟨name, _, hname⟩ := get?_of_resolve hresolve
    ⟨name, hname⟩
  exact ⟨⟨fun p hp => (parts_eq_ok hinputs p hp).1, fun p hp => (parts_eq_ok houtputs p hp).1⟩,
    List.forall_mem_append.2 ⟨hlisted hinputs, hlisted houtputs⟩⟩

theorem eq_ok_of_ownedBy {α : Type} {owner : String} {x : Except Fault α} {a : α}
    (h : ownedBy owner x = .ok a) : x = .ok a := by
  unfold ownedBy at h
  split at h
  · cases h
  · exact h

/-! ## Registering products and recipes -/

/-- Registering a product adds it, by name and under its name, if the name is new. -/
theorem keeps_registerProduct {P : Factory → Prop} (name module : String)
    (h : ∀ f, P f → f.products.contains name = false → ∀ modules productIds p,
      P { f with
        modules
        productIds
        products := f.products.insert name p
        productNames := f.productNames.insert p name }) :
    Action.Keeps P (registerProduct name module) := by
  unfold registerProduct
  apply Action.Keeps.bind_current
  intro f hf
  refine Action.Triple.ite (fun _ => Action.Keeps.lift) fun hnew => ?_
  apply Action.Keeps.bind (Action.Keeps.assign (h f hf (eq_false_of_ne_true hnew) _ _ _))
  exact fun _ => Action.Keeps.bind Action.Keeps.report fun _ => Action.Keeps.pure

/-- Registering a recipe adds it if it has positive amounts of registered products. -/
theorem keeps_registerRecipe {P : Factory → Prop} (name : String) (inputs outputs period : Value)
    (h : ∀ f, P f → ∀ recipe : Recipe, recipe.Positive → recipe.Listed f.products →
      P { f with recipes := f.recipes.insert name recipe }) :
    Action.Keeps P (registerRecipe name inputs outputs period) := by
  unfold registerRecipe
  apply Action.Keeps.bind_current
  intro f hf
  refine Action.Triple.ite (fun _ => Action.Keeps.lift) fun _ => ?_
  apply Action.Keeps.bind_lift
  intro inputs hinputs
  apply Action.Keeps.bind_lift
  intro outputs houtputs
  apply Action.Keeps.bind_lift
  intro ticks _
  apply Action.Keeps.bind_lift
  intro recipe hrecipe
  obtain ⟨n, hn, _, rfl⟩ := ofPeriod_eq_ok hrecipe
  obtain ⟨hpositive, hlisted⟩ := every_of_parts hn hinputs houtputs
  apply Action.Keeps.bind (Action.Keeps.assign (h f hf _ hpositive hlisted))
  exact fun _ => Action.Keeps.bind Action.Keeps.report fun _ => Action.Keeps.pure

/-! ## Registering streams -/

section Binding

variable {P : Factory → Prop}

theorem keeps_bindAll_of (owner : String) (values : List Value)
    (h : ∀ value ∈ values, Action.Keeps P (bind owner value)) (ps : List Product) :
    Action.Keeps P (bindAll owner ps values) := by
  induction values generalizing ps with
  | nil => cases ps <;> exact Action.Keeps.pure
  | cons value values ih =>
    cases ps with
    | nil => exact Action.Keeps.pure
    | cons p ps =>
      rw [bindAll]
      apply Action.Keeps.bind (h value List.mem_cons_self)
      intro index
      apply Action.Keeps.bind (ih (fun v hv => h v (List.mem_cons_of_mem _ hv)) ps)
      exact fun _ => Action.Keeps.pure

/-- What is appended is a stream as new, bound to earlier ones. -/
theorem keeps_append {recipe : Recipe}
    (h : ∀ f, P f → ∀ slots mult label, (∀ slot ∈ slots, slot.supplier < f.arena.size) → 1 ≤ mult →
      P { f with
        arena := ⟨f.arena.streams ++ [Stream.fresh recipe slots mult f.config.bufferMultiplier]⟩
        labels := f.labels ++ [label] })
    (owner recipeName : String) (bindings : List (Product × Nat)) (mult : Int) :
    Action.Keeps P (append owner recipeName recipe bindings mult) := by
  refine Action.Keeps.bind_current fun f hf => Action.Keeps.bind_lift ?_
  rintro ⟨index, arena⟩ hadd
  obtain ⟨slots, hslots, _, hmult, rfl, rfl⟩ := Arena.add_eq_ok (eq_ok_of_ownedBy hadd)
  have hearlier : ∀ slot ∈ slots, slot.supplier < f.arena.size := fun slot hslot => by
    obtain ⟨_, _, hbound⟩ := Result.exists_of_mem_mapM hslots hslot
    exact (Arena.slot_eq_ok hbound).2
  exact Action.Keeps.bind (Action.Keeps.assign (h f hf slots mult _ hearlier hmult)) fun _ => Action.Keeps.pure

/-- Binding a value changes the factory only by appending streams of registered recipes. -/
theorem keeps_bind (owner : String)
    (happend : ∀ f, P f → ∀ name recipe, resolve .recipe f.recipes name = .ok recipe →
      ∀ bindings mult, Action.Keeps P (append owner name.label recipe bindings mult)) :
    ∀ value, Action.Keeps P (bind owner value)
  | .stream name => by
    rw [bind]
    exact Action.Keeps.bind_current fun _ _ => Action.Keeps.lift
  | .call name args mult => by
    rw [bind]
    apply Action.Keeps.bind_current
    intro f hf
    apply Action.Keeps.bind_lift
    intro recipe hrecipe
    apply Action.Keeps.bind_lift
    intro mult _
    refine Action.Triple.ite (fun _ => Action.Keeps.lift) fun _ => ?_
    apply Action.Keeps.bind
    · exact keeps_bindAll_of owner args (fun value _ => keeps_bind owner happend value) _
    · exact fun bindings => happend f hf name recipe hrecipe bindings mult
  | .none | .bool _ | .int _ | .real _ | .text _ | .list _ | .record _ | .part _ _ => by
    rw [bind]
    · exact Action.Keeps.lift
    all_goals intros; contradiction

/-- What is undone goes back to as many streams as there were. -/
theorem keeps_undoingStreams {α : Type} {act : Action Factory α} (h : Action.Keeps P act)
    (htruncate : ∀ f g, P f → P g → P (g.truncate f.arena.size)) :
    Action.Keeps P (undoingStreams act) := by
  intro s hs
  have hact := h s hs
  unfold undoingStreams
  revert hact
  cases act s with
  | ok a t => exact id
  | error fault t =>
    cases fault with
    | refused r => exact fun ht => htruncate s.state t.state hs ht
    | _ => exact id

/-- Registering a stream appends streams of registered recipes, may drop some again, and names one. -/
theorem keeps_registerStream (name : String) (definition : Value)
    (happend : ∀ f, P f → ∀ recipeName recipe, f.recipes.get? recipeName = some recipe → ∀ slots mult label,
      (∀ slot ∈ slots, slot.supplier < f.arena.size) → 1 ≤ mult →
      P { f with
        arena := ⟨f.arena.streams ++ [Stream.fresh recipe slots mult f.config.bufferMultiplier]⟩
        labels := f.labels ++ [label] })
    (htruncate : ∀ f g, P f → P g → P (g.truncate f.arena.size))
    (hname : ∀ f, P f → ∀ index,
      P { f with streams := f.streams.insert name index, labels := f.labels.set index name }) :
    Action.Keeps P (registerStream name definition) := by
  -- No recipe comes in meanwhile, so the one that was found is there when its stream is appended.
  have hbind (f : Factory) :
      Action.Keeps (fun g => P g ∧ g.recipes = f.recipes) (undoingStreams (bind name definition)) := by
    refine keeps_undoingStreams (keeps_bind name ?_ _) fun g g' hg hg' => ⟨htruncate g g' hg.1 hg'.1, hg'.2⟩
    rintro g ⟨_, hrecipes⟩ value recipe hrecipe bindings mult
    obtain ⟨recipeName, _, hrecipe⟩ := get?_of_resolve hrecipe
    rw [hrecipes] at hrecipe
    refine keeps_append (fun g' hg' slots mult label hearlier hmult => ⟨?_, hg'.2⟩) _ _ _ _
    exact happend g' hg'.1 recipeName recipe (hg'.2 ▸ hrecipe) slots mult label hearlier hmult
  have hundoing : Action.Keeps P (undoingStreams (bind name definition)) :=
    Action.Triple.fix fun f hf => (hbind f).weaken (fun g hg => ⟨hg ▸ hf, congrArg recipes hg⟩)
      (fun _ _ hg => hg.1) fun _ _ hg => hg.1
  unfold registerStream
  apply Action.Keeps.bind_current
  intro f _
  refine Action.Triple.ite (fun _ => Action.Keeps.lift) fun _ => ?_
  split
  · apply Action.Keeps.bind hundoing
    intro index
    apply Action.Keeps.bind (Action.Keeps.update fun f hf => hname f hf index)
    exact fun _ => Action.Keeps.bind Action.Keeps.report fun _ => Action.Keeps.pure
  · exact Action.Keeps.lift

end Binding

end Factory

end Conveyor
