-- SUMMARY: Taking results apart: what a computation without a state had computed before it answered.
import Conveyor.Fault
import Mathlib.Data.List.Forall2

/-!
# Results

A computation that may fail and has answered had an answer at every step. The lemmas here hand these
answers on, one step at a time, and for a list one answer per item.
-/

namespace Conveyor.Result

variable {ε α β : Type}

theorem bind_eq_ok {x : Except ε α} {f : α → Except ε β} {b : β} :
    x >>= f = .ok b ↔ ∃ a, x = .ok a ∧ f a = .ok b := by
  constructor
  · intro h
    cases x with
    | ok a => exact ⟨a, rfl, h⟩
    | error e => cases h
  · rintro ⟨a, rfl, h⟩
    exact h

theorem pure_eq_ok {a b : α} : (pure a : Except ε α) = .ok b ↔ a = b :=
  ⟨Except.ok.inj, congrArg Except.ok⟩

theorem exists_of_isOk {x : Except ε α} (h : x.isOk = true) : ∃ a, x = .ok a := by
  cases x with
  | ok a => exact ⟨a, rfl⟩
  | error e => cases h

theorem toOption_eq_some {x : Except ε α} {a : α} : x.toOption = some a ↔ x = .ok a := by
  cases x with
  | ok b => exact ⟨fun h => congrArg Except.ok (Option.some.inj h), fun h => congrArg some (Except.ok.inj h)⟩
  | error e => exact ⟨nofun, nofun⟩

instance decidableExistsError {P : ε → Prop} [DecidablePred P] :
    ∀ x : Except ε α, Decidable (∃ f, x = .error f ∧ P f)
  | .ok _ => isFalse nofun
  | .error f => decidable_of_iff (P f) ⟨fun h => ⟨f, rfl, h⟩, fun ⟨_, hf, h⟩ => Except.error.inj hf ▸ h⟩

instance decidableExistsOk {P : α → Prop} [DecidablePred P] :
    ∀ x : Except ε α, Decidable (∃ a, x = .ok a ∧ P a)
  | .ok a => decidable_of_iff (P a) ⟨fun h => ⟨a, rfl, h⟩, fun ⟨_, ha, h⟩ => Except.ok.inj ha ▸ h⟩
  | .error _ => isFalse nofun

/-- The answers to the items of a list, in order. -/
theorem mapM_eq_ok {f : α → Except ε β} {xs : List α} {ys : List β} :
    xs.mapM f = .ok ys ↔ List.Forall₂ (fun x y => f x = .ok y) xs ys := by
  induction xs generalizing ys with
  | nil => rw [List.mapM_nil, pure_eq_ok, List.forall₂_nil_left_iff, eq_comm]
  | cons x xs ih =>
    rw [List.mapM_cons, bind_eq_ok, List.forall₂_cons_left_iff]
    constructor
    · rintro ⟨y, hy, h⟩
      obtain ⟨zs, hzs, h⟩ := bind_eq_ok.1 h
      exact ⟨y, zs, hy, ih.1 hzs, (pure_eq_ok.1 h).symm⟩
    · rintro ⟨y, zs, hy, hzs, rfl⟩
      exact ⟨y, hy, bind_eq_ok.2 ⟨zs, ih.2 hzs, rfl⟩⟩

/-- What follows from each answer, for all of them in order. -/
theorem exists_forall₂_of_mapM {γ : Type} {f : α → Except ε β} {Q : β → γ → Prop} {R : α → γ → Prop} {xs : List α}
    {ys : List β} (h : xs.mapM f = .ok ys) (hf : ∀ x ∈ xs, ∀ y, f x = .ok y → ∃ z, Q y z ∧ R x z) :
    ∃ zs, List.Forall₂ Q ys zs ∧ List.Forall₂ R xs zs := by
  rw [mapM_eq_ok] at h
  induction h with
  | nil => exact ⟨[], .nil, .nil⟩
  | cons hx _ ih =>
    obtain ⟨hhead, htail⟩ := List.forall_mem_cons.1 hf
    obtain ⟨z, hQ, hR⟩ := hhead _ hx
    obtain ⟨zs, hQs, hRs⟩ := ih htail
    exact ⟨z :: zs, .cons hQ hQs, .cons hR hRs⟩

/-- The answers of a loop in a loop, one after the other. -/
theorem mapM_flatMap {γ : Type} {g : α → List β} {f : β → Except ε γ} {xs : List α} {yss : List (List γ)}
    (h : xs.mapM (fun x => (g x).mapM f) = .ok yss) : (xs.flatMap g).mapM f = .ok yss.flatten := by
  rw [mapM_eq_ok] at h ⊢
  induction h with
  | nil => exact .nil
  | cons hx _ ih => exact List.rel_append (mapM_eq_ok.1 hx) ih

/-- Lists whose items have the same answers have the same answers. -/
theorem mapM_congr {γ : Type} {f : α → Except ε γ} {g : β → Except ε γ} {xs : List α} {ys : List β}
    (h : List.Forall₂ (fun x y => f x = g y) xs ys) : xs.mapM f = ys.mapM g := by
  induction h with
  | nil => rfl
  | cons hxy _ ih => rw [List.mapM_cons, List.mapM_cons, hxy, ih]

/-- The first item that fails is one of the list. -/
theorem exists_error_of_mapM {f : α → Except ε β} {xs : List α} {e : ε} (h : xs.mapM f = .error e) :
    ∃ x ∈ xs, f x = .error e := by
  induction xs with
  | nil => cases h
  | cons x xs ih =>
    rw [List.mapM_cons] at h
    cases hx : f x with
    | error d =>
      rw [hx] at h
      cases h
      exact ⟨x, List.mem_cons_self, hx⟩
    | ok y =>
      cases hxs : xs.mapM f with
      | error d =>
        rw [hx, hxs] at h
        cases h
        obtain ⟨z, hz, hfault⟩ := ih hxs
        exact ⟨z, List.mem_cons_of_mem _ hz, hfault⟩
      | ok ys =>
        rw [hx, hxs] at h
        cases h

theorem exists_of_forall₂ {R : α → β → Prop} {xs : List α} {ys : List β} (h : List.Forall₂ R xs ys)
    {y : β} (hy : y ∈ ys) : ∃ x ∈ xs, R x y := by
  induction h with
  | nil => cases hy
  | cons hx _ ih =>
    cases hy with
    | head => exact ⟨_, List.mem_cons_self, hx⟩
    | tail _ hy =>
      obtain ⟨x, hx, hR⟩ := ih hy
      exact ⟨x, List.mem_cons_of_mem _ hx, hR⟩

/-- If each item has an answer, so has the list. -/
theorem exists_mapM {f : α → Except ε β} {xs : List α} (h : ∀ x ∈ xs, ∃ y, f x = .ok y) :
    ∃ ys, xs.mapM f = .ok ys := by
  induction xs with
  | nil => exact ⟨[], rfl⟩
  | cons x xs ih =>
    obtain ⟨hx, hxs⟩ := List.forall_mem_cons.1 h
    obtain ⟨y, hy⟩ := hx
    obtain ⟨ys, hys⟩ := ih hxs
    exact ⟨y :: ys, mapM_eq_ok.2 (.cons hy (mapM_eq_ok.1 hys))⟩

/-- An answer, and one that follows from it. -/
theorem exists_bind {x : Except ε α} {f : α → Except ε β} {a : α} (hx : x = .ok a) (hf : ∃ b, f a = .ok b) :
    ∃ b, x >>= f = .ok b :=
  hf.imp fun _ hb => bind_eq_ok.2 ⟨a, hx, hb⟩

/-- If each step of a fold has an answer, so has the fold. -/
theorem exists_foldlM {f : β → α → Except ε β} {xs : List α} (h : ∀ x ∈ xs, ∀ b, ∃ c, f b x = .ok c) (b : β) :
    ∃ c, xs.foldlM f b = .ok c := by
  induction xs generalizing b with
  | nil => exact ⟨b, rfl⟩
  | cons x xs ih =>
    obtain ⟨hx, hxs⟩ := List.forall_mem_cons.1 h
    obtain ⟨c, hc⟩ := hx b
    obtain ⟨d, hd⟩ := ih hxs c
    exact ⟨d, bind_eq_ok.2 ⟨c, hc, hd⟩⟩

/-- Every answer is the answer to some item. -/
theorem exists_of_mem_mapM {f : α → Except ε β} {xs : List α} {ys : List β}
    (h : xs.mapM f = .ok ys) {y : β} (hy : y ∈ ys) : ∃ x ∈ xs, f x = .ok y :=
  exists_of_forall₂ (mapM_eq_ok.1 h) hy

/-- Every item has an answer. -/
theorem exists_mem_of_mapM {f : α → Except ε β} {xs : List α} {ys : List β}
    (h : xs.mapM f = .ok ys) {x : α} (hx : x ∈ xs) : ∃ y ∈ ys, f x = .ok y := by
  obtain ⟨y, hy, hxy⟩ := exists_of_forall₂ (mapM_eq_ok.1 h).flip hx
  exact ⟨y, hy, hxy⟩

theorem forM_eq_ok {f : α → Except ε Unit} {xs : List α} :
    xs.forM f = .ok () ↔ ∀ x ∈ xs, f x = .ok () := by
  induction xs with
  | nil => exact ⟨fun _ _ hx => absurd hx List.not_mem_nil, fun _ => rfl⟩
  | cons x xs ih =>
    rw [List.forall_mem_cons, ← ih]
    constructor
    · intro h
      obtain ⟨_, hx, hxs⟩ := bind_eq_ok.1 h
      exact ⟨hx, hxs⟩
    · rintro ⟨hx, hxs⟩
      exact bind_eq_ok.2 ⟨(), hx, hxs⟩

/-- Two loops over lists that correspond item by item. -/
theorem forM_map {f : α → Except ε Unit} {g : β → Except ε Unit} {e : α → β} {xs : List α}
    (h : ∀ x ∈ xs, f x = g (e x)) : (xs.map e).forM g = xs.forM f := by
  induction xs with
  | nil => rfl
  | cons x xs ih =>
    obtain ⟨hx, hxs⟩ := List.forall_mem_cons.1 h
    change (g (e x) >>= fun _ => (xs.map e).forM g) = (f x >>= fun _ => xs.forM f)
    rw [hx, ih hxs]

end Conveyor.Result
