-- SUMMARY: Well-formed factories: tables, labels and bindings agree with each other, and each change of a factory keeps it so.
import Conveyor.Proofs.Efficiency.Supply
import Conveyor.Proofs.Factory.Registration

/-!
# Well-formed factories

A factory keeps its streams, their labels and four tables of names side by side. They agree if every
name leads to the stream that is labelled with it, every other label tells the recipe and the index of
its stream, and the numbers of products and modules are those that were handed out, in order. Each
change that a call makes is looked at on its own here; the calls are put together from them elsewhere.
-/

namespace Conveyor

/-! ## Tables that grow -/

namespace Table

variable {κ α : Type} [DecidableEq κ] {t : Table κ α} {k : κ}

theorem put_of_not_mem {es : List (κ × α)} (h : k ∉ es.map Prod.fst) (v : α) :
    put k v es = es ++ [(k, v)] := by
  induction es with
  | nil => rfl
  | cons e es ih =>
    rw [List.map_cons, List.mem_cons, not_or] at h
    rw [put, if_neg (Ne.symm h.1), ih h.2, List.cons_append]

/-- A new key goes last. -/
theorem entries_insert (h : t.get? k = none) (v : α) :
    (t.insert k v).entries = t.entries ++ [(k, v)] :=
  put_of_not_mem (find?_eq_none_iff.1 h) v

theorem values_insert (h : t.get? k = none) (v : α) : (t.insert k v).values = t.values ++ [v] := by
  rw [values, entries_insert h, List.map_append]
  rfl

theorem size_insert (h : t.get? k = none) (v : α) : (t.insert k v).size = t.size + 1 := by
  rw [size, entries_insert h, List.length_append]
  rfl

theorem contains_eq_false_iff : t.contains k = false ↔ t.get? k = none := by
  simp [contains]

end Table

/-! ## Modules -/

/-- The modules are numbered in order, and the default module is the first. -/
structure ModuleRegistry.Numbered (r : ModuleRegistry) : Prop where
  values : r.numbers.values = List.range r.size
  default : r.numbers.get? defaultModule = some 0

theorem ModuleRegistry.numbered_initial : initial.Numbered := ⟨rfl, rfl⟩

theorem ModuleRegistry.Numbered.number {r : ModuleRegistry} (h : r.Numbered) (name : String) :
    (r.number name).2.Numbered := by
  unfold ModuleRegistry.number
  cases hname : r.numbers.get? name with
  | some n => exact h
  | none =>
    constructor
    · change (r.numbers.insert name r.size).values = List.range (r.numbers.insert name r.size).size
      rw [Table.values_insert hname, Table.size_insert hname, List.range_succ, h.values]
      rfl
    · have hne : name ≠ defaultModule := by
        rintro rfl
        rw [h.default] at hname
        cases hname
      rw [Table.get?_insert, if_neg hne, h.default]

/-! ## Products -/

/-- Names and products are each other's, and products are numbered in the order in which they came. -/
structure Catalogue (modules : ModuleRegistry) (productIds : ProductRegistry)
    (products : Table String Product) (productNames : Table Product String) : Prop where
  inverse : ∀ name p, products.get? name = some p ↔ productNames.get? p = some name
  numbered : products.values.map Product.id = (List.range products.size).map Int.ofNat
  counted : productIds.size = products.size
  modules : modules.Numbered

namespace Catalogue

variable {modules : ModuleRegistry} {productIds : ProductRegistry} {products : Table String Product}
  {productNames : Table Product String} {name : String}

theorem initial : Catalogue .initial {} ∅ ∅ where
  inverse _ _ := ⟨nofun, nofun⟩
  numbered := rfl
  counted := rfl
  modules := ModuleRegistry.numbered_initial

/-- The number of a new product is not one of those handed out. -/
theorem get?_create (h : Catalogue modules productIds products productNames) (module : Int) :
    productNames.get? (productIds.create module).1 = none := by
  rw [Option.eq_none_iff_forall_ne_some]
  intro name hname
  have hvalue := Table.mem_values_iff.2 ⟨name, (h.inverse _ _).2 hname⟩
  have hid := List.mem_map_of_mem (f := Product.id) hvalue
  rw [h.numbered, ← h.counted] at hid
  obtain ⟨n, hn, hid⟩ := List.mem_map.1 hid
  have hsize : n = productIds.size := Int.ofNat.inj hid
  exact Nat.ne_of_lt (List.mem_range.1 hn) hsize

theorem add (h : Catalogue modules productIds products productNames) (hname : products.get? name = none)
    {modules' : ModuleRegistry} (hmodules : modules'.Numbered) (module : Int) :
    Catalogue modules' (productIds.create module).2
      (products.insert name (productIds.create module).1)
      (productNames.insert (productIds.create module).1 name) where
  inverse other p := by
    have hnew := h.get?_create module
    rw [Table.get?_insert, Table.get?_insert]
    split
    next hother =>
      subst other
      split
      next hp => exact ⟨fun _ => rfl, fun _ => congrArg some hp⟩
      next hp =>
        refine ⟨fun heq => absurd (Option.some.inj heq) hp, fun hp => ?_⟩
        rw [(h.inverse name p).2 hp] at hname
        cases hname
    next hother =>
      split
      next hp =>
        refine ⟨fun hp' => ?_, fun heq => absurd (Option.some.inj heq) hother⟩
        rw [hp, (h.inverse other p).1 hp'] at hnew
        cases hnew
      next hp => exact h.inverse other p
  numbered := by
    rw [Table.values_insert hname, Table.size_insert hname, List.range_succ, List.map_append,
      List.map_append, h.numbered, ← h.counted]
    rfl
  counted := by
    rw [Table.size_insert hname, ← h.counted]
    rfl
  modules := hmodules

end Catalogue

/-! ## Arenas that grow -/

namespace Arena

variable {a : Arena} {s t : Stream} {i : Nat}

theorem bindsEarlier_iff : a.BindsEarlier ↔
    ∀ i s, a.stream? i = some s → ∀ slot ∈ s.inputs, slot.supplier < i := by
  constructor
  · exact fun h i s hs slot hslot => h.lt ⟨s, hs, slot, hslot, rfl⟩
  · exact fun h e he => h e.2 e.1 (List.mem_zipIdx_iff_getElem?.1 he)

theorem lt_size_of_stream? (hs : a.stream? i = some s) : i < a.size :=
  (List.getElem?_eq_some_iff.1 hs).1

theorem Built.append (ha : a.Built) (hs : s.Built) (hearlier : ∀ slot ∈ s.inputs, slot.supplier < a.size) :
    Built ⟨a.streams ++ [s]⟩ where
  bindsEarlier := bindsEarlier_iff.2 fun i t ht => by
    rcases stream?_append.1 ht with ht | ⟨rfl, rfl⟩
    · exact bindsEarlier_iff.1 ha.bindsEarlier i t ht
    · exact hearlier
  stream i t ht := by
    rcases stream?_append.1 ht with ht | ⟨_, rfl⟩
    · exact ha.stream i t ht
    · exact hs

end Arena

/-! ## Factories -/

namespace Factory

/-- What the tables, the labels and the streams of a factory have to agree on. -/
structure WellFormed (f : Factory) : Prop where
  /-- Bindings follow the recipe slot by slot and go to earlier streams; some copy of each stream runs. -/
  arena : f.arena.Built
  recipes : ∀ name recipe, f.recipes.get? name = some recipe →
    recipe.Positive ∧ ∃ n, recipe.IsTimed n
  labels_length : f.labels.length = f.arena.size
  label_of_name : ∀ name i, f.streams.get? name = some i → f.labels[i]? = some name
  label_of_recipe : ∀ j s, f.arena.stream? j = some s → (∀ name, f.streams.get? name ≠ some j) →
    ∃ recipeName, f.recipes.get? recipeName = some s.recipe ∧
      f.labels[j]? = some (recipeName ++ "#" ++ toString j)
  catalogue : Catalogue f.modules f.productIds f.products f.productNames

variable {f : Factory} {name recipeName : String} {recipe : Recipe}

theorem wellFormed_empty (config : Config) : (empty config).WellFormed where
  arena := ⟨fun _ he => absurd he List.not_mem_nil, fun _ _ hs => by cases hs⟩
  recipes _ _ := nofun
  labels_length := rfl
  label_of_name _ _ := nofun
  label_of_recipe _ _ := nofun
  catalogue := .initial

namespace WellFormed

/-- Names that lead to one stream are one name. -/
theorem names_distinct (hf : f.WellFormed) {name' : String} {i : Nat}
    (h : f.streams.get? name = some i) (h' : f.streams.get? name' = some i) : name = name' :=
  Option.some.inj ((hf.label_of_name name i h).symm.trans (hf.label_of_name name' i h'))

theorem index_lt (hf : f.WellFormed) {i : Nat} (h : f.streams.get? name = some i) :
    i < f.arena.size :=
  hf.labels_length ▸ (List.getElem?_eq_some_iff.1 (hf.label_of_name name i h)).1

/-! ## Products and recipes -/

theorem addProduct (hf : f.WellFormed) {modules : ModuleRegistry} {productIds : ProductRegistry}
    {products : Table String Product} {productNames : Table Product String}
    (h : Catalogue modules productIds products productNames) :
    WellFormed { f with modules, productIds, products, productNames } where
  arena := hf.arena
  recipes := hf.recipes
  labels_length := hf.labels_length
  label_of_name := hf.label_of_name
  label_of_recipe := hf.label_of_recipe
  catalogue := h

theorem addRecipe (hf : f.WellFormed) (hname : f.recipes.get? name = none) (hpositive : recipe.Positive)
    (htimed : ∃ n, recipe.IsTimed n) : WellFormed { f with recipes := f.recipes.insert name recipe } where
  arena := hf.arena
  recipes other r hr := by
    rw [Table.get?_insert] at hr
    split at hr
    · exact Option.some.inj hr ▸ ⟨hpositive, htimed⟩
    · exact hf.recipes other r hr
  labels_length := hf.labels_length
  label_of_name := hf.label_of_name
  label_of_recipe j s hs hj := by
    obtain ⟨other, hother, hlabel⟩ := hf.label_of_recipe j s hs hj
    refine ⟨other, ?_, hlabel⟩
    have hne : name ≠ other := by
      rintro rfl
      rw [hname] at hother
      cases hother
    rw [Table.get?_insert, if_neg hne, hother]
  catalogue := hf.catalogue

/-! ## Streams -/

/-- A stream whose slots follow a registered recipe may be appended, under the label of the recipe. -/
theorem append (hf : f.WellFormed) (hrecipe : f.recipes.get? recipeName = some recipe)
    {slots : List Slot} (hslots : slots.map Slot.product = recipe.inputs.map Part.product)
    (hearlier : ∀ slot ∈ slots, slot.supplier < f.arena.size) {mult : Int} (hmult : 1 ≤ mult) (m : Int) :
    WellFormed { f with
      arena := ⟨f.arena.streams ++ [Stream.fresh recipe slots mult m]⟩
      labels := f.labels ++ [recipeName ++ "#" ++ toString f.arena.size] } where
  arena := by
    obtain ⟨hpositive, htimed⟩ := hf.recipes recipeName recipe hrecipe
    exact hf.arena.append ⟨htimed, hpositive, hslots, hmult⟩ hearlier
  recipes := hf.recipes
  labels_length := by
    unfold Arena.size
    rw [List.length_append, List.length_append, hf.labels_length]
    rfl
  label_of_name other i hi := by
    rw [List.getElem?_append_left (hf.labels_length ▸ hf.index_lt hi), hf.label_of_name other i hi]
  label_of_recipe j s hs hj := by
    rcases Arena.stream?_append.1 hs with hs | ⟨rfl, rfl⟩
    · obtain ⟨other, hother, hlabel⟩ := hf.label_of_recipe j s hs hj
      refine ⟨other, hother, ?_⟩
      rw [List.getElem?_append_left (hf.labels_length ▸ Arena.lt_size_of_stream? hs), hlabel]
    · refine ⟨recipeName, hrecipe, ?_⟩
      rw [← hf.labels_length, List.getElem?_concat_length]
  catalogue := hf.catalogue

/-- A stream that has no name yet may be given a new one. -/
theorem addName (hf : f.WellFormed) (hname : f.streams.get? name = none) {index : Nat}
    (hindex : index < f.arena.size) (hunnamed : ∀ other, f.streams.get? other ≠ some index) :
    WellFormed { f with streams := f.streams.insert name index, labels := f.labels.set index name } where
  arena := hf.arena
  recipes := hf.recipes
  labels_length := by rw [List.length_set, hf.labels_length]
  label_of_name other i hi := by
    rw [Table.get?_insert] at hi
    split at hi
    next hother =>
      obtain rfl := Option.some.inj hi
      rw [List.getElem?_set_self (hf.labels_length.symm ▸ hindex), hother]
    next =>
      have hne : index ≠ i := fun h => hunnamed other (h ▸ hi)
      rw [List.getElem?_set_ne hne, hf.label_of_name other i hi]
  label_of_recipe j s hs hj := by
    have hne : index ≠ j := by
      rintro rfl
      exact hj name (by rw [Table.get?_insert, if_pos rfl])
    rw [List.getElem?_set_ne hne]
    refine hf.label_of_recipe j s hs fun other hother => hj other ?_
    have hnew : name ≠ other := by
      rintro rfl
      rw [hname] at hother
      cases hother
    rw [Table.get?_insert, if_neg hnew, hother]
  catalogue := hf.catalogue

/-! ## Driving -/

/-- Whatever happens to multipliers, buffers and countdowns, all else is as it was. -/
theorem withArena (hf : f.WellFormed) {arena : Arena} (h : f.arena.Raised arena) :
    WellFormed { f with arena } where
  arena := h.built hf.arena
  recipes := hf.recipes
  labels_length := hf.labels_length.trans h.size.symm
  label_of_name := hf.label_of_name
  label_of_recipe j t ht hj := by
    obtain ⟨s, hs, hst⟩ := h.exists_stream ht
    exact hst.recipe ▸ hf.label_of_recipe j s hs hj
  catalogue := hf.catalogue

theorem withConfig (hf : f.WellFormed) (config : Config) : WellFormed { f with config } where
  arena := hf.arena
  recipes := hf.recipes
  labels_length := hf.labels_length
  label_of_name := hf.label_of_name
  label_of_recipe := hf.label_of_recipe
  catalogue := hf.catalogue

end WellFormed

end Factory

end Conveyor
