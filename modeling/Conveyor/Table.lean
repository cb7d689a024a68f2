-- SUMMARY: Tables with one entry per key, listed in the order in which the keys came in.

/-!
# Tables

A table holds at most one value per key and remembers the order in which the keys were first
inserted: a new key goes last, a known key keeps its place. Everything that is read off a table is
said through `get?` and `keys`.
-/

namespace Conveyor

/-- At most one value per key, in order of first insertion. -/
structure Table (κ α : Type) where
  entries : List (κ × α)
  nodup_keys : (entries.map Prod.fst).Nodup
deriving DecidableEq, Repr

namespace Table

variable {κ α β : Type}

instance : EmptyCollection (Table κ α) := ⟨⟨[], by simp⟩⟩

instance : Inhabited (Table κ α) := ⟨∅⟩

theorem ext_entries {t u : Table κ α} (h : t.entries = u.entries) : t = u := by
  cases t; cases u; cases h; rfl

/-! ## Reading -/

def keys (t : Table κ α) : List κ := t.entries.map Prod.fst

def values (t : Table κ α) : List α := t.entries.map Prod.snd

def size (t : Table κ α) : Nat := t.entries.length

section Reading

variable [DecidableEq κ]

/-- The value that a list of entries holds for a key. -/
def find? (k : κ) : List (κ × α) → Option α
  | [] => none
  | (k', v) :: es => if k' = k then some v else find? k es

def get? (t : Table κ α) (k : κ) : Option α := find? k t.entries

def getD (t : Table κ α) (k : κ) (default : α) : α := (t.get? k).getD default

def contains (t : Table κ α) (k : κ) : Bool := (t.get? k).isSome

theorem find?_eq_none_iff {k : κ} {es : List (κ × α)} :
    find? k es = none ↔ k ∉ es.map Prod.fst := by
  induction es with
  | nil => simp [find?]
  | cons e es ih =>
    obtain ⟨k', v⟩ := e
    by_cases h : k' = k
    · simp [find?, h]
    · simp [find?, h, ih, Ne.symm h]

theorem contains_iff {t : Table κ α} {k : κ} : t.contains k = true ↔ k ∈ t.keys := by
  unfold contains get? keys
  rw [← Decidable.not_iff_not, ← find?_eq_none_iff]
  simp

@[simp] theorem get?_empty (k : κ) : (∅ : Table κ α).get? k = none := rfl

end Reading

/-! ## Writing -/

section Writing

variable [DecidableEq κ]

/-- Entries with `v` for `k`: in the place of the old value, or last. -/
def put (k : κ) (v : α) : List (κ × α) → List (κ × α)
  | [] => [(k, v)]
  | (k', v') :: es => if k' = k then (k, v) :: es else (k', v') :: put k v es

theorem map_fst_put (k : κ) (v : α) (es : List (κ × α)) :
    (put k v es).map Prod.fst =
      if k ∈ es.map Prod.fst then es.map Prod.fst else es.map Prod.fst ++ [k] := by
  induction es with
  | nil => simp [put]
  | cons e es ih =>
    obtain ⟨k', v'⟩ := e
    by_cases h : k' = k
    · simp [put, h]
    · have h' : k ≠ k' := Ne.symm h
      simp only [put, if_neg h, List.map_cons, ih, List.mem_cons, h', false_or]
      split <;> rfl

theorem find?_put (k j : κ) (v : α) (es : List (κ × α)) :
    find? j (put k v es) = if k = j then some v else find? j es := by
  induction es with
  | nil => simp [put, find?]
  | cons e es ih =>
    obtain ⟨k', v'⟩ := e
    by_cases h : k' = k
    · subst h
      by_cases hj : k' = j <;> simp [put, find?, hj]
    · by_cases hj : k' = j
      · subst hj
        simp [put, find?, h, Ne.symm h]
      · simp [put, find?, h, hj, ih]

/-- Set the value for a key; a known key keeps its place and a new one goes last. -/
def insert (t : Table κ α) (k : κ) (v : α) : Table κ α where
  entries := put k v t.entries
  nodup_keys := by
    rw [map_fst_put]
    split
    · exact t.nodup_keys
    · rename_i h
      rw [List.nodup_append]
      refine ⟨t.nodup_keys, by simp, ?_⟩
      intro a ha b hb
      obtain rfl := List.mem_singleton.1 hb
      exact fun hab => h (hab ▸ ha)

/-- Change the value for a key, if there is one. -/
def modify (t : Table κ α) (k : κ) (f : α → α) : Table κ α :=
  match t.get? k with
  | some v => t.insert k (f v)
  | none => t

@[simp] theorem get?_insert (t : Table κ α) (k j : κ) (v : α) :
    (t.insert k v).get? j = if k = j then some v else t.get? j :=
  find?_put k j v t.entries

theorem keys_insert (t : Table κ α) (k : κ) (v : α) :
    (t.insert k v).keys = if k ∈ t.keys then t.keys else t.keys ++ [k] :=
  map_fst_put k v t.entries

theorem get?_modify (t : Table κ α) (k j : κ) (f : α → α) :
    (t.modify k f).get? j = if k = j then (t.get? j).map f else t.get? j := by
  unfold modify
  cases h : t.get? k with
  | none =>
    by_cases hj : k = j
    · subst hj; simp [h]
    · simp [hj]
  | some v =>
    by_cases hj : k = j
    · subst hj; simp [h]
    · simp [hj]

theorem keys_modify (t : Table κ α) (k : κ) (f : α → α) : (t.modify k f).keys = t.keys := by
  unfold modify
  split
  · rename_i v h
    rw [keys_insert, if_pos]
    exact contains_iff.1 (by simp [contains, h])
  · rfl

end Writing

/-! ## Whole tables -/

/-- Change every value. -/
def mapValues (f : α → β) (t : Table κ α) : Table κ β where
  entries := t.entries.map fun e => (e.1, f e.2)
  nodup_keys := by
    rw [List.map_map]
    exact t.nodup_keys

@[simp] theorem keys_mapValues (f : α → β) (t : Table κ α) : (t.mapValues f).keys = t.keys := by
  simp [keys, mapValues]

@[simp] theorem get?_mapValues [DecidableEq κ] (f : α → β) (t : Table κ α) (k : κ) :
    (t.mapValues f).get? k = (t.get? k).map f := by
  obtain ⟨es, hes⟩ := t
  simp only [get?, mapValues]
  clear hes
  induction es with
  | nil => rfl
  | cons e es ih =>
    obtain ⟨k', v⟩ := e
    by_cases h : k' = k
    · simp [find?, h]
    · simpa [find?, h] using ih

/-- The table with the entries of a list; of two entries with one key the later value counts. -/
def ofList [DecidableEq κ] (es : List (κ × α)) : Table κ α :=
  es.foldl (fun t e => t.insert e.1 e.2) ∅

end Table

end Conveyor
