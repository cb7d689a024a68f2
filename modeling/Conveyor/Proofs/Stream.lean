-- SUMMARY: What each operation on a stream does to the buffers that it holds, product by product.
import Conveyor.Stream
import Mathlib.Algebra.Order.BigOperators.Group.List
import Mathlib.Tactic.Ring

/-!
# Streams, product by product

The buffers of a stream are read through `get?`, the totals of a recipe through `getD`. Each
operation has one lemma that says what it does to every product at once. A product that is both
consumed and yielded has one buffer, which production changes by the difference.
-/

namespace Conveyor

/-! ## Tables -/

namespace Table

variable {κ α : Type} [DecidableEq κ]

theorem find?_eq_some_iff {k : κ} {v : α} {es : List (κ × α)} (hes : (es.map Prod.fst).Nodup) :
    find? k es = some v ↔ (k, v) ∈ es := by
  induction es with
  | nil => simp [find?]
  | cons e es ih =>
    obtain ⟨j, w⟩ := e
    rw [List.map_cons, List.nodup_cons] at hes
    cases Decidable.em (j = k) with
    | inl hj =>
      subst hj
      have hnot : (j, v) ∉ es := fun hm => hes.1 (List.mem_map.2 ⟨(j, v), hm, rfl⟩)
      simp [find?, hnot, eq_comm]
    | inr hj =>
      simp [find?, hj, Ne.symm hj, ih hes.2]

theorem get?_eq_some_iff {t : Table κ α} {k : κ} {v : α} :
    t.get? k = some v ↔ (k, v) ∈ t.entries :=
  find?_eq_some_iff t.nodup_keys

theorem mem_values_iff {t : Table κ α} {v : α} : v ∈ t.values ↔ ∃ k, t.get? k = some v := by
  simp [values, get?_eq_some_iff]

theorem mem_keys_iff {t : Table κ α} {k : κ} : k ∈ t.keys ↔ ∃ v, t.get? k = some v := by
  simp [keys, get?_eq_some_iff]

end Table

/-! ## Buffers -/

namespace Buffer

@[simp] theorem gain_current (b : Buffer) (n : Int) : (b.gain n).current = b.current + n := rfl

@[simp] theorem gain_max (b : Buffer) (n : Int) : (b.gain n).max = b.max := rfl

@[simp] theorem gain_zero (b : Buffer) : b.gain 0 = b := by
  simp [gain]

@[simp] theorem gain_gain (b : Buffer) (m n : Int) : (b.gain m).gain n = b.gain (m + n) := by
  simp [gain, Int.add_assoc]

end Buffer

/-! ## Recipes -/

namespace Recipe

/-- Every part of the recipe is a positive number of units. -/
structure Positive (r : Recipe) : Prop where
  inputs : ∀ part ∈ r.inputs, 0 < part.amount
  outputs : ∀ part ∈ r.outputs, 0 < part.amount

instance (r : Recipe) : Decidable r.Positive :=
  decidable_of_iff (_ ∧ _) ⟨fun h => ⟨h.1, h.2⟩, fun h => ⟨h.inputs, h.outputs⟩⟩

/-- Units of a product among some parts. -/
def units (parts : List Part) (p : Product) : Int :=
  ((parts.filter (·.product = p)).map Part.amount).sum

theorem getD_foldl_insert (parts : List Part) (t : Table Product Int) (p : Product) :
    (parts.foldl (fun t part => t.insert part.product (t.getD part.product 0 + part.amount)) t).getD p 0
      = t.getD p 0 + units parts p := by
  induction parts generalizing t with
  | nil => simp [units]
  | cons part parts ih =>
    rw [List.foldl_cons, ih]
    cases Decidable.em (part.product = p) with
    | inl h =>
      subst h
      simp only [units, Table.getD, Table.get?_insert, if_pos, Option.getD_some]
      simp [Int.add_assoc]
    | inr h => simp [units, Table.getD, h]

/-- The total of a product is the sum of its parts. -/
theorem getD_totals (parts : List Part) (p : Product) : (totals parts).getD p 0 = units parts p := by
  rw [totals, getD_foldl_insert]
  simp [Table.getD]

theorem units_nonneg {parts : List Part} (h : ∀ part ∈ parts, 0 < part.amount) (p : Product) :
    0 ≤ units parts p := by
  apply List.sum_nonneg
  intro n hn
  obtain ⟨part, hpart, rfl⟩ := List.mem_map.1 hn
  exact Int.le_of_lt (h part (List.mem_filter.1 hpart).1)

theorem requiredOf_nonneg {r : Recipe} (h : r.Positive) (p : Product) : 0 ≤ r.requiredOf p := by
  rw [requiredOf, inputTotals, getD_totals]
  exact units_nonneg h.inputs p

theorem yieldOf_nonneg {r : Recipe} (h : r.Positive) (p : Product) : 0 ≤ r.yieldOf p := by
  rw [yieldOf, outputTotals, getD_totals]
  exact units_nonneg h.outputs p

theorem requiredOf_eq_of_get? {r : Recipe} {p : Product} {n : Int}
    (h : r.inputTotals.get? p = some n) : r.requiredOf p = n := by
  simp [requiredOf, Table.getD, h]

theorem yieldOf_eq_of_get? {r : Recipe} {p : Product} {n : Int}
    (h : r.outputTotals.get? p = some n) : r.yieldOf p = n := by
  simp [yieldOf, Table.getD, h]

end Recipe

/-! ## Streams -/

namespace Stream

theorem get?_gain (s : Stream) (p q : Product) (n : Int) :
    (s.gain p n).buffers.get? q =
      if p = q then (s.buffers.get? q).map (·.gain n) else s.buffers.get? q :=
  Table.get?_modify _ _ _ _

/-- Opening an input gives its product a buffer and leaves all others alone. -/
theorem get?_openInput (s : Stream) (p q : Product) (m : Int) :
    (s.openInput p m).buffers.get? q =
      if p = q then some (s.inputBuffer p m) else s.buffers.get? q := by
  unfold openInput
  cases h : s.buffers.contains p with
  | false => simp
  | true =>
    obtain ⟨b, hb⟩ := Option.isSome_iff_exists.1 h
    cases Decidable.em (p = q) with
    | inl hq => subst hq; simp [inputBuffer, hb]
    | inr hq => simp [hq]

theorem mem_keys_openInput {s : Stream} {p q : Product} {m : Int} :
    q ∈ (s.openInput p m).buffers.keys ↔ p = q ∨ q ∈ s.buffers.keys := by
  rw [Table.mem_keys_iff, Table.mem_keys_iff, get?_openInput]
  split
  next h => simp [h]
  next h => simp [h]

@[simp] theorem openInput_recipe (s : Stream) (p : Product) (m : Int) :
    (s.openInput p m).recipe = s.recipe := by
  unfold openInput; split <;> rfl

@[simp] theorem openInput_inputs (s : Stream) (p : Product) (m : Int) :
    (s.openInput p m).inputs = s.inputs := by
  unfold openInput; split <;> rfl

@[simp] theorem openInput_mult (s : Stream) (p : Product) (m : Int) :
    (s.openInput p m).mult = s.mult := by
  unfold openInput; split <;> rfl

@[simp] theorem openInput_next (s : Stream) (p : Product) (m : Int) :
    (s.openInput p m).next = s.next := by
  unfold openInput; split <;> rfl

/-- Scaling changes the capacity of every buffer in proportion. -/
theorem scale_eq_ok {s s' : Stream} {n : Int} (h : s.scale n = .ok s') :
    s' = { s with
      mult := n
      buffers := s.buffers.mapValues fun b => b.resize ((b.max * n).fdiv s.mult) } := by
  unfold scale at h
  split at h
  · cases h
  · exact (Except.ok.inj h).symm

theorem get?_scale {s s' : Stream} {n : Int} (h : s.scale n = .ok s') (p : Product) :
    s'.buffers.get? p = (s.buffers.get? p).map fun b => b.resize ((b.max * n).fdiv s.mult) := by
  rw [scale_eq_ok h]
  exact Table.get?_mapValues _ _ _

theorem exists_scale {s : Stream} (hs : 1 ≤ s.mult) (n : Int) : ∃ s', s.scale n = .ok s' := by
  unfold scale
  rw [if_neg fun h => by omega]
  exact ⟨_, rfl⟩

/-! ## Production -/

theorem get?_foldl_gain (sign mult : Int) (p : Product) {es : List (Product × Int)}
    (hes : (es.map Prod.fst).Nodup) (stock : Stock) :
    (es.foldl (fun bs (q, n) => bs.modify q (·.gain (sign * (n * mult)))) stock).get? p =
      (stock.get? p).map (·.gain (sign * ((Table.find? p es).getD 0 * mult))) := by
  induction es generalizing stock with
  | nil => simp [Table.find?]
  | cons e es ih =>
    obtain ⟨q, n⟩ := e
    rw [List.map_cons, List.nodup_cons] at hes
    rw [List.foldl_cons, ih hes.2, Table.get?_modify]
    cases Decidable.em (q = p) with
    | inl hq =>
      subst hq
      have hlast : Table.find? q es = none := Table.find?_eq_none_iff.2 hes.1
      simp [Table.find?, hlast, Function.comp_def]
    | inr hq => simp [Table.find?, hq]

/-- Settling changes the stock of every product by its total. -/
theorem get?_settle (sign mult : Int) (totals : Table Product Int) (stock : Stock) (p : Product) :
    (settle sign mult totals stock).get? p =
      (stock.get? p).map (·.gain (sign * (totals.getD p 0 * mult))) :=
  get?_foldl_gain sign mult p totals.nodup_keys stock

/-- What production checks before it changes anything. -/
theorem canProduce_iff {s : Stream} :
    s.canProduce = true ↔
      (∀ p n, s.recipe.inputTotals.get? p = some n →
        ∃ b, s.buffers.get? p = some b ∧ n * s.mult ≤ b.current) ∧
      (∀ p n, s.recipe.outputTotals.get? p = some n →
        ∃ b, s.buffers.get? p = some b ∧ n * s.mult ≤ b.free) := by
  simp [canProduce, Table.get?_eq_some_iff, Option.any_eq_true]

/-- One cycle changes the stock of every product by what it yields less what it requires. -/
theorem get?_of_produce? {s s' : Stream} (h : s.produce? = some s') (p : Product) :
    s'.buffers.get? p = (s.buffers.get? p).map
      (·.gain (s.mult * (s.recipe.yieldOf p - s.recipe.requiredOf p))) := by
  unfold produce? at h
  split at h
  · obtain rfl := Option.some.inj h
    rw [get?_settle, get?_settle, Option.map_map]
    congr 1
    funext b
    simp only [Function.comp_apply, Buffer.gain_gain, Recipe.yieldOf, Recipe.requiredOf]
    congr 1
    ring
  · cases h

theorem eq_of_produce? {s s' : Stream} (h : s.produce? = some s') :
    s' = { s with buffers := s'.buffers } := by
  unfold produce? at h
  split at h
  · obtain rfl := Option.some.inj h
    rfl
  · cases h

theorem exists_produce? {s : Stream} (h : s.canProduce = true) : ∃ s', s.produce? = some s' :=
  ⟨_, if_pos h⟩

theorem canProduce_of_produce? {s s' : Stream} (h : s.produce? = some s') :
    s.canProduce = true := by
  unfold produce? at h
  split at h
  · assumption
  · cases h

end Stream

end Conveyor
