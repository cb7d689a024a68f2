-- SUMMARY: Looking streams up in an arena, adding and dropping them.
import Conveyor.Arena
import Conveyor.Proofs.Result

/-!
# Arenas, stream by stream
-/

namespace Conveyor.Arena

/-! ## Look-ups -/

theorem stream_eq_ok {a : Arena} {i : Nat} {s : Stream} (h : a.stream i = .ok s) :
    a.stream? i = some s := by
  unfold stream at h
  split at h
  · obtain rfl := Except.ok.inj h
    assumption
  · cases h

theorem stream_of_eq_some {a : Arena} {i : Nat} {s : Stream} (h : a.stream? i = some s) :
    a.stream i = .ok s := by
  unfold stream
  rw [h]

/-- Arenas of one size have streams at the same indices. -/
theorem exists_stream?_of_size_eq {a b : Arena} (h : b.size = a.size) {i : Nat} {t : Stream}
    (ht : b.stream? i = some t) : ∃ s, a.stream? i = some s := by
  have hlt : i < b.size := (List.getElem?_eq_some_iff.1 ht).1
  rw [h] at hlt
  exact ⟨_, List.getElem?_eq_getElem hlt⟩

theorem buffer?_eq_some_iff {a : Arena} {i : Nat} {p : Product} {b : Buffer} :
    a.buffer? i p = some b ↔ ∃ s, a.stream? i = some s ∧ s.buffers.get? p = some b := by
  simp [buffer?, Option.bind_eq_some_iff]

theorem buffer_eq_ok {a : Arena} {i : Nat} {p : Product} {b : Buffer} :
    a.buffer i p = .ok b ↔ ∃ s, a.stream? i = some s ∧ s.buffers.get? p = some b := by
  rw [← buffer?_eq_some_iff, buffer]
  cases a.buffer? i p with
  | none => exact iff_of_false nofun nofun
  | some c => rw [Except.ok.injEq, Option.some.injEq]

theorem modify_eq_self {a : Arena} {i : Nat} (h : a.stream? i = none) (f : Stream → Stream) :
    a.modify i f = a := by
  have hlength : a.streams.length ≤ i := List.getElem?_eq_none_iff.1 h
  exact congrArg Arena.mk (List.modify_eq_self hlength)

/-- A change of one stream leaves what holds of all of them, if it leaves that one with it. -/
theorem forall_stream_modify {a : Arena} {i : Nat} {P : Stream → Prop} {f : Stream → Stream} (ha : ∀ i s, a.stream? i = some s → P s)
    (hf : ∀ s, a.stream? i = some s → P (f s)) : ∀ j s, (a.modify i f).stream? j = some s → P s := by
  intro j s hs
  rw [stream?_modify] at hs
  split at hs
  · subst j
    obtain ⟨t, ht, rfl⟩ := Option.map_eq_some_iff.1 hs
    exact hf t ht
  · exact ha j s hs

/-! ## Adding and dropping -/

theorem stream?_append {a : Arena} {s t : Stream} {i : Nat} : stream? ⟨a.streams ++ [s]⟩ i = some t ↔
    a.stream? i = some t ∨ i = a.size ∧ t = s := by
  rw [stream?, List.getElem?_append]
  split
  next hlt =>
    have hne : i ≠ a.size := Nat.ne_of_lt hlt
    simp [stream?, hne]
  next hge =>
    have hnone : a.stream? i = none := List.getElem?_eq_none (Nat.not_lt.1 hge)
    rw [hnone, List.getElem?_singleton]
    have hindex : i - a.streams.length = 0 ↔ i = a.size := by unfold size; omega
    simp [hindex, eq_comm]

theorem slot_eq_ok {a : Arena} {p : Product} {i : Int} {slot : Slot} (h : a.slot p i = .ok slot) :
    slot.product = p ∧ slot.supplier < a.size := by
  unfold Arena.slot at h
  split at h
  next hi =>
    obtain rfl := Except.ok.inj h
    exact ⟨rfl, by simp only; omega⟩
  · cases h

/-- A stream that is added comes last, at one copy or more. -/
theorem add_eq_ok {a b : Arena} {recipe : Recipe} {bindings : List (Product × Int)} {mult m : Int}
    {index : Nat} (h : a.add recipe bindings mult m = .ok (index, b)) :
    ∃ slots, bindings.mapM (fun (p, i) => a.slot p i) = .ok slots ∧
      bindings.length = recipe.inputs.length ∧ 1 ≤ mult ∧ index = a.size ∧
      b = ⟨a.streams ++ [Stream.fresh recipe slots mult m]⟩ := by
  unfold Arena.add at h
  split at h
  · cases h
  next hlength =>
  split at h
  · cases h
  next hmult =>
  obtain ⟨slots, hslots, h⟩ := Result.bind_eq_ok.1 h
  obtain ⟨rfl, rfl⟩ := Prod.mk.inj (Result.pure_eq_ok.1 h)
  exact ⟨slots, hslots, Decidable.not_not.1 hlength, Int.not_lt.1 hmult, rfl, rfl⟩

theorem stream?_truncate (a : Arena) (n i : Nat) :
    (a.truncate n).stream? i = if i < n then a.stream? i else none := by
  have hcut : cut a.size (n : Int) = n := if_neg (Int.not_lt.2 (Int.natCast_nonneg n))
  rw [truncate, hcut, stream?, List.getElem?_take]
  rfl

/-- A stream that is left is one that was there. -/
theorem stream?_of_truncate {a : Arena} {n i : Nat} {s : Stream} (h : (a.truncate n).stream? i = some s) :
    i < n ∧ a.stream? i = some s := by
  rw [stream?_truncate] at h
  split at h
  next hlt => exact ⟨hlt, h⟩
  next => cases h

/-! ## A line to try things on -/

/-- A mine of so many shafts that each digs one ore in `rest + 1` ticks, and a smelter that needs two
ore every two ticks. -/
def mining (rest : Nat) (shafts : Int) : Arena :=
  ⟨[Stream.fresh (Recipe.every (rest + 1) (by omega) [] [⟨⟨0, 0⟩, 1⟩]) [] shafts 8,
    Stream.fresh (Recipe.every 2 (by omega) [⟨⟨0, 0⟩, 2⟩] [⟨⟨1, 0⟩, 1⟩]) [⟨⟨0, 0⟩, 0⟩] 1 8]⟩

end Conveyor.Arena
