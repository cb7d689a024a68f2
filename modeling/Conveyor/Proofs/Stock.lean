-- SUMMARY: The stock of a product over a whole arena, and what pulling and production leave of it.
import Conveyor.Arena.Simulation
import Conveyor.Proofs.Action
import Conveyor.Proofs.Arena
import Conveyor.Proofs.Stream

/-!
# Stock

The stock of a product is counted over all buffers of an arena. Opening a buffer and moving stock
between two buffers, which may be one, leave the count as it is. Nothing that happens while time
passes changes a recipe, a multiplier, a binding or the capacity of a buffer that is there; countdowns
change at the streams that are advanced (`Arena.Kept`).
-/

namespace Conveyor

/-! ## Streams -/

namespace Stream

/-- Units of a product that the stream holds. -/
def stock (s : Stream) (p : Product) : Int := ((s.buffers.get? p).map Buffer.current).getD 0

theorem stock_eq {s : Stream} {p : Product} {b : Buffer} (h : s.buffers.get? p = some b) :
    s.stock p = b.current := by
  rw [stock, h]
  rfl

/-- What `t` has in common with the earlier `s`. -/
structure Same (s t : Stream) : Prop where
  recipe : t.recipe = s.recipe
  inputs : t.inputs = s.inputs
  mult : t.mult = s.mult
  max : ∀ p b, s.buffers.get? p = some b → ∃ c, t.buffers.get? p = some c ∧ c.max = b.max

theorem Same.refl (s : Stream) : s.Same s :=
  ⟨rfl, rfl, rfl, fun _ b hb => ⟨b, hb, rfl⟩⟩

theorem Same.trans {s t u : Stream} (h : s.Same t) (h' : t.Same u) : s.Same u where
  recipe := h'.recipe.trans h.recipe
  inputs := h'.inputs.trans h.inputs
  mult := h'.mult.trans h.mult
  max p b hb := by
    obtain ⟨c, hc, hcb⟩ := h.max p b hb
    obtain ⟨d, hd, hdc⟩ := h'.max p c hc
    exact ⟨d, hd, hdc.trans hcb⟩

theorem setNext_same (s : Stream) (next : Option Int) : s.Same { s with next } :=
  ⟨rfl, rfl, rfl, fun _ b hb => ⟨b, hb, rfl⟩⟩

theorem stock_gain {s : Stream} {p : Product} {b : Buffer} (h : s.buffers.get? p = some b) (n : Int)
    (q : Product) : (s.gain p n).stock q = s.stock q + if p = q then n else 0 := by
  unfold stock
  rw [get?_gain]
  split
  · subst q
    simp [h]
  · simp

theorem gain_same (s : Stream) (p : Product) (n : Int) : s.Same (s.gain p n) where
  recipe := rfl
  inputs := rfl
  mult := rfl
  max q b hb := by
    rw [get?_gain, hb]
    split
    · exact ⟨b.gain n, rfl, rfl⟩
    · exact ⟨b, rfl, rfl⟩

theorem stock_openInput (s : Stream) (p q : Product) (m : Int) :
    (s.openInput p m).stock q = s.stock q := by
  unfold stock
  rw [get?_openInput]
  split
  · subst q
    unfold inputBuffer
    cases s.buffers.get? p <;> rfl
  · rfl

theorem openInput_same (s : Stream) (p : Product) (m : Int) : s.Same (s.openInput p m) where
  recipe := openInput_recipe s p m
  inputs := openInput_inputs s p m
  mult := openInput_mult s p m
  max q b hb := by
    rw [get?_openInput]
    split
    · subst q
      exact ⟨b, by simp [inputBuffer, hb], rfl⟩
    · exact ⟨b, hb, rfl⟩

/-- Units of a product that one cycle of all copies makes, less those that it uses up. -/
def net (s : Stream) (p : Product) : Int := s.mult * (s.recipe.yieldOf p - s.recipe.requiredOf p)

/-- A cycle that succeeds has a buffer for every product that it uses up or makes. -/
theorem stock_of_produce? {s s' : Stream} (h : s.produce? = some s') (p : Product) :
    s'.stock p = s.stock p + s.net p := by
  obtain ⟨hinputs, houtputs⟩ := canProduce_iff.1 (canProduce_of_produce? h)
  unfold stock
  rw [get?_of_produce? h]
  cases hb : s.buffers.get? p with
  | some b => rfl
  | none =>
    have hrequired : s.recipe.inputTotals.get? p = none := by
      refine Option.eq_none_iff_forall_ne_some.2 fun n hn => ?_
      obtain ⟨b, hb', _⟩ := hinputs p n hn
      rw [hb] at hb'
      cases hb'
    have hyield : s.recipe.outputTotals.get? p = none := by
      refine Option.eq_none_iff_forall_ne_some.2 fun n hn => ?_
      obtain ⟨b, hb', _⟩ := houtputs p n hn
      rw [hb] at hb'
      cases hb'
    simp [net, Recipe.yieldOf, Recipe.requiredOf, Table.getD, hrequired, hyield]

theorem produce?_same {s s' : Stream} (h : s.produce? = some s') : s.Same s' where
  recipe := by rw [eq_of_produce? h]
  inputs := by rw [eq_of_produce? h]
  mult := by rw [eq_of_produce? h]
  max p b hb := ⟨_, (get?_of_produce? h p).trans (congrArg _ hb), rfl⟩

theorem produce?_next {s s' : Stream} (h : s.produce? = some s') : s'.next = s.next := by
  rw [eq_of_produce? h]

end Stream

/-! ## Arenas -/

theorem le_foldl_min {α : Type} [LinearOrder α] {c m : α} {xs : List α} :
    c ≤ xs.foldl min m ↔ c ≤ m ∧ ∀ x ∈ xs, c ≤ x := by
  induction xs generalizing m with
  | nil => simp
  | cons x xs ih => rw [List.foldl_cons, ih, le_min_iff, List.forall_mem_cons, and_assoc]

theorem sum_map_modify {α : Type} (g : α → Int) (f : α → α) {xs : List α} {i : Nat} {x : α}
    (h : xs[i]? = some x) : ((xs.modify i f).map g).sum = (xs.map g).sum + (g (f x) - g x) := by
  induction xs generalizing i with
  | nil => cases h
  | cons y ys ih =>
    cases i with
    | zero =>
      obtain rfl := Option.some.inj h
      simp only [List.modify_zero_cons, List.map_cons, List.sum_cons]
      omega
    | succ i =>
      simp only [List.modify_succ_cons, List.map_cons, List.sum_cons]
      rw [ih (by simpa using h)]
      omega

namespace Arena

/-- Units of a product in all buffers. -/
def stock (a : Arena) (p : Product) : Int := (a.streams.map (·.stock p)).sum

theorem stock_modify {a : Arena} {i : Nat} {s : Stream} (h : a.stream? i = some s)
    (f : Stream → Stream) (p : Product) :
    (a.modify i f).stock p = a.stock p + ((f s).stock p - s.stock p) :=
  sum_map_modify (fun t : Stream => t.stock p) f h

/-- What a change of one stream leaves of the stock, if it leaves what the stream holds. -/
theorem stock_modify_of_eq {a : Arena} {i : Nat} {f : Stream → Stream} {p : Product}
    (h : ∀ s, (f s).stock p = s.stock p) : (a.modify i f).stock p = a.stock p := by
  cases hs : a.stream? i with
  | none => rw [modify_eq_self hs]
  | some s => rw [stock_modify hs, h s]; omega

/-- The stock that is left by moving units between two buffers. If they are one, it loses what it
then gains. -/
theorem stock_transfer (a : Arena) (i u : Nat) (p q : Product) :
    (a.transfer i u p).stock q = a.stock q := by
  unfold transfer
  split
  next dest source hd hc =>
    obtain ⟨s, hs, hb⟩ := Option.bind_eq_some_iff.1 hd
    obtain ⟨t, ht, hc⟩ := Option.bind_eq_some_iff.1 hc
    set moved := dest.movable source
    obtain ⟨s', hs', b', hb'⟩ : ∃ s', (a.modify u (·.gain p (-moved))).stream? i = some s' ∧
        ∃ b', s'.buffers.get? p = some b' := by
      rw [stream?_modify, hs]
      split
      · exact ⟨_, rfl, _, by rw [Stream.get?_gain, if_pos rfl, hb]; rfl⟩
      · exact ⟨s, rfl, dest, hb⟩
    rw [stock_modify hs', Stream.stock_gain hb', stock_modify ht, Stream.stock_gain hc]
    split <;> omega
  next => rfl

theorem buffer?_gain (a : Arena) (i j : Nat) (p q : Product) (n : Int) :
    (a.modify i (·.gain p n)).buffer? j q =
      if i = j ∧ p = q then (a.buffer? j q).map (·.gain n) else a.buffer? j q := by
  simp only [buffer?, stream?_modify]
  cases a.stream? j with
  | none => simp
  | some s =>
    cases Decidable.em (i = j) with
    | inl hij => simp [hij, Stream.get?_gain]
    | inr hij => simp [hij]

theorem stock_openInput (a : Arena) (i : Nat) (p q : Product) (m : Int) :
    (a.openInput i p m).stock q = a.stock q :=
  stock_modify_of_eq fun s => Stream.stock_openInput s p q m

/-- Units of a product that stream `i` holds. -/
def held (a : Arena) (i : Nat) (p : Product) : Int := ((a.stream? i).map (·.stock p)).getD 0

section Held

variable {a : Arena} {i : Nat} {p : Product} {s : Stream} {m : Int}

theorem held_eq (hs : a.stream? i = some s) (p : Product) : a.held i p = s.stock p := by
  rw [held, hs]
  rfl

theorem held_modify (a : Arena) (i j : Nat) (f : Stream → Stream) (p : Product) :
    (a.modify i f).held j p =
      if i = j then ((a.stream? j).map fun s => (f s).stock p).getD 0 else a.held j p := by
  unfold held
  rw [stream?_modify]
  split
  · rw [Option.map_map]
    rfl
  · rfl

theorem held_openInput (a : Arena) (i j : Nat) (p q : Product) :
    (a.openInput i p m).held j q = a.held j q := by
  rw [openInput, held_modify]
  split
  · simp only [Stream.stock_openInput]
    rfl
  · rfl

theorem held_gain {b : Buffer} (hb : a.buffer? i p = some b) (n : Int) (j : Nat) (q : Product) :
    (a.modify i (·.gain p n)).held j q = a.held j q + if i = j ∧ p = q then n else 0 := by
  obtain ⟨s, hs, hb⟩ := buffer?_eq_some_iff.1 hb
  rw [held_modify]
  split
  next hij =>
    subst j
    rw [held_eq hs, hs, Option.map_some, Option.getD_some, Stream.stock_gain hb]
    simp only [true_and]
  next hij => rw [if_neg (fun h => hij h.1), Int.add_zero]

end Held

/-- What one cycle of stream `i` adds to the stock of a product, below zero if it uses some up. -/
def net (a : Arena) (i : Nat) (p : Product) : Int := ((a.stream? i).map (·.net p)).getD 0

theorem net_eq {a : Arena} {i : Nat} {s : Stream} (h : a.stream? i = some s) (p : Product) :
    a.net i p = s.net p := by
  rw [net, h]
  rfl

/-! ## What time leaves as it is -/

/-- The streams of `b` are those of `a`, with what they hold, and the countdowns of those that have
been advanced, apart. -/
structure Kept (advanced : List Nat) (a b : Arena) : Prop where
  size : b.size = a.size
  stream : ∀ i s, a.stream? i = some s →
    ∃ t, b.stream? i = some t ∧ s.Same t ∧ (i ∉ advanced → t.next = s.next)

namespace Kept

variable {a b c : Arena} {is js : List Nat}

theorem refl (is : List Nat) (a : Arena) : Kept is a a :=
  ⟨rfl, fun _ s hs => ⟨s, hs, Stream.Same.refl s, fun _ => rfl⟩⟩

/-- The streams of the later arena are those of the earlier one. -/
theorem stream_of_after (h : Kept is a b) {i : Nat} {t : Stream} (ht : b.stream? i = some t) :
    ∃ s, a.stream? i = some s ∧ s.Same t ∧ (i ∉ is → t.next = s.next) := by
  obtain ⟨s, hs⟩ := exists_stream?_of_size_eq h.size ht
  obtain ⟨t', ht', hsame, hnext⟩ := h.stream i s hs
  obtain rfl := Option.some.inj (ht.symm.trans ht')
  exact ⟨s, hs, hsame, hnext⟩

theorem same (h : Kept is a b) {i : Nat} {s t : Stream} (hs : a.stream? i = some s) (ht : b.stream? i = some t) :
    s.Same t := by
  obtain ⟨t', ht', hsame, _⟩ := h.stream i s hs
  obtain rfl := Option.some.inj (ht.symm.trans ht')
  exact hsame

theorem net (h : Kept is a b) (i : Nat) (p : Product) : b.net i p = a.net i p := by
  cases ht : b.stream? i with
  | none =>
    have hle : a.size ≤ i := h.size ▸ List.getElem?_eq_none_iff.1 ht
    rw [Arena.net, Arena.net, ht, show a.stream? i = none from List.getElem?_eq_none_iff.2 hle]
  | some t =>
    obtain ⟨s, hs, hsame, _⟩ := h.stream_of_after ht
    rw [net_eq ht, net_eq hs, Stream.net, Stream.net, hsame.recipe, hsame.mult]

theorem trans (h : Kept is a b) (h' : Kept js b c) : Kept (is ++ js) a c where
  size := h'.size.trans h.size
  stream i s hs := by
    obtain ⟨t, ht, hsame, hnext⟩ := h.stream i s hs
    obtain ⟨u, hu, hsame', hnext'⟩ := h'.stream i t ht
    refine ⟨u, hu, hsame.trans hsame', fun hi => ?_⟩
    rw [List.mem_append, not_or] at hi
    exact (hnext' hi.2).trans (hnext hi.1)

/-- More of the same: no other streams are advanced. -/
theorem andThen (h : Kept is a b) (h' : Kept js b c) (hsub : js ⊆ is) : Kept is a c where
  size := (h.trans h').size
  stream i s hs := by
    obtain ⟨t, ht, hsame, hnext⟩ := (h.trans h').stream i s hs
    exact ⟨t, ht, hsame, fun hi => hnext fun hmem => hi ((List.mem_append.1 hmem).elim id (hsub ·))⟩

theorem modify {i : Nat} {f : Stream → Stream}
    (h : ∀ s, a.stream? i = some s → s.Same (f s) ∧ (i ∉ is → (f s).next = s.next)) :
    Kept is a (a.modify i f) where
  size := size_modify a i f
  stream j s hs := by
    rw [stream?_modify, hs]
    split
    · subst j
      exact ⟨f s, rfl, h s hs⟩
    · exact ⟨s, rfl, Stream.Same.refl s, fun _ => rfl⟩

theorem openInput (a : Arena) (i : Nat) (p : Product) (m : Int) :
    Kept [] a (a.openInput i p m) :=
  modify fun s _ => ⟨Stream.openInput_same s p m, fun _ => Stream.openInput_next s p m⟩

theorem transfer (a : Arena) (i u : Nat) (p : Product) : Kept [] a (a.transfer i u p) := by
  unfold Arena.transfer
  split
  next dest source _ _ =>
    have hgain (b : Arena) (j : Nat) (n : Int) : Kept [] b (b.modify j (·.gain p n)) :=
      modify fun s _ => ⟨Stream.gain_same s p n, fun _ => rfl⟩
    exact (hgain a u _).trans (hgain _ i _)
  next => exact refl [] a

theorem produce {i : Nat} {s s' : Stream} (hs : a.stream? i = some s) (h : s.produce? = some s') :
    Kept [] a (a.modify i fun _ => s') :=
  modify fun t ht => by
    obtain rfl := Option.some.inj (hs.symm.trans ht)
    exact ⟨Stream.produce?_same h, fun _ => Stream.produce?_next h⟩

end Kept

end Arena

end Conveyor
