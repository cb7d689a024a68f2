-- SUMMARY: The list of raises that balancing answers with is an exact account of what it changed.
import Conveyor.Proofs.Balancing
import Conveyor.Proofs.Bounds
import Mathlib.Logic.Relation

/-!
# Raises as an account

Making the raises of the list one by one, from the arena before, meets the multipliers that the list
says and ends in the arena after. Only streams strictly upstream of the target are raised, and each
raise goes up from one copy or more, so no capacity shrinks and no stock is lost on the way.
-/

namespace Conveyor

/-! ## Streams that grow -/

namespace Stream

/-- The later stream runs as many copies or more in buffers as large or larger, with the same stock. -/
structure Grown (s t : Stream) : Prop where
  recipe : t.recipe = s.recipe
  inputs : t.inputs = s.inputs
  next : t.next = s.next
  mult_le : s.mult ≤ t.mult
  keys : t.buffers.keys = s.buffers.keys
  buffer : ∀ p b, s.buffers.get? p = some b →
    ∃ c, t.buffers.get? p = some c ∧ c.current = b.current ∧ b.max ≤ c.max

namespace Grown

variable {s t u : Stream}

theorem refl (s : Stream) : s.Grown s :=
  ⟨rfl, rfl, rfl, Int.le_refl _, rfl, fun _ b hb => ⟨b, hb, rfl, Int.le_refl _⟩⟩

theorem trans (h : s.Grown t) (h' : t.Grown u) : s.Grown u where
  recipe := h'.recipe.trans h.recipe
  inputs := h'.inputs.trans h.inputs
  next := h'.next.trans h.next
  mult_le := Int.le_trans h.mult_le h'.mult_le
  keys := h'.keys.trans h.keys
  buffer p b hb := by
    obtain ⟨c, hc, hcurrent, hmax⟩ := h.buffer p b hb
    obtain ⟨d, hd, hcurrent', hmax'⟩ := h'.buffer p c hc
    exact ⟨d, hd, hcurrent'.trans hcurrent, Int.le_trans hmax hmax'⟩

/-- What holds between nothing and its capacity still does in a larger buffer. -/
theorem inBounds (h : s.Grown t) (hs : ∀ p b, s.buffers.get? p = some b → b.InBounds) :
    ∀ p b, t.buffers.get? p = some b → b.InBounds := by
  intro p c hc
  obtain ⟨b, hb⟩ := Table.mem_keys_iff.1 (h.keys ▸ Table.mem_keys_iff.2 ⟨c, hc⟩)
  obtain ⟨c', hc', hcurrent, hmax⟩ := h.buffer p b hb
  obtain rfl := Option.some.inj (hc.symm.trans hc')
  have hbounds := hs p b hb
  exact ⟨hcurrent ▸ hbounds.current_nonneg,
    hcurrent ▸ Int.le_trans hbounds.current_le hmax⟩

end Grown

/-- A capacity that grows with the multiplier has room for all that was in it. -/
theorem grown_of_scale {s s' : Stream} {n : Int} (hmult : 1 ≤ s.mult) (hn : s.mult ≤ n)
    (hs : ∀ p b, s.buffers.get? p = some b → b.InBounds) (h : s.scale n = .ok s') : s.Grown s' := by
  obtain rfl := scale_eq_ok h
  refine ⟨rfl, rfl, rfl, hn, Table.keys_mapValues _ _, fun p b hb => ?_⟩
  obtain ⟨hlow, hhigh⟩ := hs p b hb
  have hcapacity : b.max ≤ (b.max * n).fdiv s.mult := by
    rw [Int.fdiv_eq_ediv_of_nonneg _ (by omega), Int.le_ediv_iff_mul_le (by omega)]
    exact Int.mul_le_mul_of_nonneg_left hn (by omega)
  refine ⟨b.resize ((b.max * n).fdiv s.mult), ?_, ?_, hcapacity⟩
  · rw [Table.get?_mapValues, hb]
    rfl
  · simp only [Buffer.resize, Buffer.spill]
    omega

end Stream

/-! ## Making raises again -/

namespace Arena

/-- The raises of a list, made one by one, lead from one arena to another, and each finds the
multiplier that it says. -/
inductive Replay : Arena → List Change → Arena → Prop
  | nil (a : Arena) : Replay a [] a
  | cons {a b : Arena} {c : Change} {cs : List Change} {s s' : Stream}
      (stream : a.stream? c.stream = some s) (old : s.mult = c.old) (scale : s.scale c.new = .ok s')
      (rest : Replay (a.modify c.stream fun _ => s') cs b) : Replay a (c :: cs) b

theorem Replay.snoc {a b : Arena} {cs : List Change} (h : Replay a cs b) {u : Nat} {s s' : Stream}
    {n : Int} (hs : b.stream? u = some s) (hscale : s.scale n = .ok s') :
    Replay a (cs ++ [⟨u, s.mult, n⟩]) (b.modify u fun _ => s') := by
  induction h with
  | nil a => exact .cons hs rfl hscale (.nil _)
  | cons stream old scale _ ih => exact .cons stream old scale (ih hs)

/-- Stream `u` supplies stream `i`, directly or through others. -/
def Upstream (a : Arena) (u i : Nat) : Prop := Relation.TransGen a.Supplies u i

/-- No stream supplies itself, directly or through others. -/
def Acyclic (a : Arena) : Prop := ∀ i, ¬ a.Upstream i i

/-- Streams are bound to earlier streams only. -/
def BindsEarlier (a : Arena) : Prop :=
  ∀ e ∈ a.streams.zipIdx, ∀ slot ∈ e.1.inputs, slot.supplier < e.2

instance (a : Arena) : Decidable a.BindsEarlier :=
  inferInstanceAs (Decidable (∀ e ∈ a.streams.zipIdx, ∀ slot ∈ e.1.inputs, slot.supplier < e.2))

theorem BindsEarlier.lt {a : Arena} (h : a.BindsEarlier) {u i : Nat} (hu : a.Supplies u i) :
    u < i := by
  obtain ⟨s, hs, slot, hslot, rfl⟩ := hu
  exact h (s, i) (List.mem_zipIdx_iff_getElem?.2 hs) slot hslot

theorem BindsEarlier.lt_of_upstream {a : Arena} (h : a.BindsEarlier) {u i : Nat}
    (hu : a.Upstream u i) : u < i := by
  induction hu with
  | single hu => exact h.lt hu
  | tail _ hj ih => exact Nat.lt_trans ih (h.lt hj)

theorem BindsEarlier.acyclic {a : Arena} (h : a.BindsEarlier) : a.Acyclic :=
  fun i hi => Nat.lt_irrefl i (h.lt_of_upstream hi)

/-- Every buffer holds between nothing and its capacity. -/
def InBounds (a : Arena) : Prop :=
  ∀ s ∈ a.streams, ∀ b ∈ s.buffers.values, b.InBounds

instance (a : Arena) : Decidable a.InBounds :=
  inferInstanceAs (Decidable (∀ s ∈ a.streams, ∀ b ∈ s.buffers.values, b.InBounds))

theorem inBounds_iff {a : Arena} :
    a.InBounds ↔ ∀ i s, a.stream? i = some s → ∀ p b, s.buffers.get? p = some b → b.InBounds := by
  constructor
  · intro h i s hs p b hb
    exact h s (List.mem_of_getElem? hs) b (Table.mem_values_iff.2 ⟨p, hb⟩)
  · intro h s hs b hb
    obtain ⟨i, hi⟩ := List.mem_iff_getElem?.1 hs
    obtain ⟨p, hp⟩ := Table.mem_values_iff.1 hb
    exact h i s hi p b hp

/-- The same streams, some of them grown. -/
structure Grown (a b : Arena) : Prop where
  size : b.size = a.size
  stream : ∀ i s, a.stream? i = some s → ∃ t, b.stream? i = some t ∧ s.Grown t

namespace Grown

variable {a b c : Arena}

theorem refl (a : Arena) : a.Grown a :=
  ⟨rfl, fun _ s hs => ⟨s, hs, Stream.Grown.refl s⟩⟩

theorem trans (h : a.Grown b) (h' : b.Grown c) : a.Grown c where
  size := h'.size.trans h.size
  stream i s hs := by
    obtain ⟨t, ht, hgrown⟩ := h.stream i s hs
    obtain ⟨u, hu, hgrown'⟩ := h'.stream i t ht
    exact ⟨u, hu, hgrown.trans hgrown'⟩

theorem modify {i : Nat} {s s' : Stream} (hs : a.stream? i = some s) (h : s.Grown s') :
    a.Grown (a.modify i fun _ => s') where
  size := size_modify a i _
  stream j t ht := by
    rw [stream?_modify, ht]
    split
    · subst j
      obtain rfl := Option.some.inj (hs.symm.trans ht)
      exact ⟨s', rfl, h⟩
    · exact ⟨t, rfl, Stream.Grown.refl t⟩

end Grown

/-! ## The account -/

/-- What `b` says of the way from `a` while stream `i` is balanced: its list makes the arena that it
has, by raises of streams upstream of `i`, and all other streams are as they were. -/
structure Account (a : Arena) (i : Nat) (b : Balancing) : Prop where
  replay : Replay a b.changes b.arena
  raised : ∀ c ∈ b.changes, c.old < c.new ∧ a.Upstream c.stream i
  unchanged : ∀ j, ¬ a.Upstream j i → b.arena.stream? j = a.stream? j
  grown : a.Grown b.arena
  inBounds : b.arena.InBounds

theorem Account.start {a : Arena} (ha : a.InBounds) (i : Nat) : Account a i ⟨a, []⟩ where
  replay := .nil a
  raised _ hc := absurd hc List.not_mem_nil
  unchanged _ _ := rfl
  grown := Grown.refl a
  inBounds := ha

/-- Bindings stay as they are, so a supplier now is one of the arena before. -/
theorem Grown.supplies {a b : Arena} (h : a.Grown b) {u i : Nat} (hu : b.Supplies u i) :
    a.Supplies u i := by
  obtain ⟨t, ht, slot, hslot, rfl⟩ := hu
  obtain ⟨s, hs⟩ := exists_stream?_of_size_eq h.size ht
  obtain ⟨t', ht', hgrown⟩ := h.stream i s hs
  obtain rfl := Option.some.inj (ht.symm.trans ht')
  exact ⟨s, hs, slot, hgrown.inputs ▸ hslot, rfl⟩

theorem Account.raise {a : Arena} {i : Nat} {b : Balancing} (h : Account a i b) {u : Nat}
    {s s' : Stream} {n : Int} (hu : a.Upstream u i) (hs : b.arena.stream? u = some s)
    (hmult : 1 ≤ s.mult) (hn : s.mult < n) (hscale : s.scale n = .ok s') :
    Account a i (b.afterRaise u s s') := by
  have hgrown := Stream.grown_of_scale hmult (Int.le_of_lt hn) (inBounds_iff.1 h.inBounds u s hs) hscale
  have hnew : s'.mult = n := by rw [Stream.scale_eq_ok hscale]
  refine ⟨?_, ?_, ?_, h.grown.trans (Grown.modify hs hgrown), ?_⟩
  · rw [Balancing.afterRaise, hnew]
    exact h.replay.snoc hs hscale
  · intro c hc
    cases List.mem_append.1 hc with
    | inl hc => exact h.raised c hc
    | inr hc =>
      obtain rfl := List.mem_singleton.1 hc
      exact ⟨hnew ▸ hn, hu⟩
  · intro j hj
    have hne : u ≠ j := fun huj => hj (huj ▸ hu)
    rw [← h.unchanged j hj, Balancing.afterRaise, stream?_modify, if_neg hne]
  · refine inBounds_iff.2 fun j t ht => ?_
    rw [Balancing.afterRaise, stream?_modify] at ht
    split at ht
    · obtain ⟨t₀, _, rfl⟩ := Option.map_eq_some_iff.1 ht
      exact hgrown.inBounds (inBounds_iff.1 h.inBounds u s hs)
    · exact inBounds_iff.1 h.inBounds j t ht

theorem account_closedUnderRaise (a : Arena) (i : Nat) :
    Balancing.ClosedUnderRaise (fun j => Relation.ReflTransGen a.Supplies j i)
      (fun j => a.Upstream j i) (Account a i) where
  visits _ hu := hu.to_reflTransGen
  suppliers _ hb _ _ hj hu := Relation.TransGen.head' (hb.grown.supplies hu) hj
  raise _ hb _ _ _ _ hu hs hmult hn hscale := hb.raise hu hs hmult hn hscale

/-- Balancing a stream of an arena without cycles raises streams strictly upstream of it, to higher
multipliers, in the order and from the multipliers that it answers with, and changes nothing else.
So the stream itself and all that is not upstream of it are as before, and no multiplier, no capacity
and no stock goes down. -/
theorem solve_account {i : Nat} {ε : Float} {s t : Logged Arena} {changes : List Change}
    (hacyclic : s.state.Acyclic) (hbounds : s.state.InBounds)
    (h : solve i ε s = .ok changes t) :
    (∀ c ∈ changes, c.old < c.new ∧ s.state.Upstream c.stream i) ∧
    Replay s.state changes t.state ∧
    t.state.stream? i = s.state.stream? i ∧
    (∀ j, ¬ s.state.Upstream j i → t.state.stream? j = s.state.stream? j) ∧
    s.state.Grown t.state := by
  have hsolve := triple_solve (account_closedUnderRaise s.state i) Relation.ReflTransGen.refl ε s
    (Account.start hbounds i)
  rw [h] at hsolve
  exact ⟨hsolve.raised, hsolve.replay, hsolve.unchanged i (hacyclic i), hsolve.unchanged,
    hsolve.grown⟩

/-- The mine gets the copies that the smelter needs. -/
theorem solve_account_mining :
    ∃ t, solve 1 defaultEpsilon { state := mining 3 1 } = .ok [⟨0, 1, 4⟩] t ∧
      Replay (mining 3 1) [⟨0, 1, 4⟩] t.state ∧ t.state.stream? 1 = (mining 3 1).stream? 1 := by
  have hrun : (match solve 1 defaultEpsilon { state := mining 3 1 } with
      | .ok changes _ => decide (changes = [⟨0, 1, 4⟩])
      | .error _ _ => false) = true := by
    decide +kernel
  have hearlier : (mining 3 1).BindsEarlier := by decide
  have hbounds : (mining 3 1).InBounds := by decide
  cases h : solve 1 defaultEpsilon { state := mining 3 1 } with
  | error f t => rw [h] at hrun; cases hrun
  | ok changes t =>
    rw [h] at hrun
    obtain rfl := of_decide_eq_true hrun
    obtain ⟨_, hreplay, htarget, _⟩ := solve_account hearlier.acyclic hbounds h
    exact ⟨t, rfl, hreplay, htarget⟩

end Arena

end Conveyor
