-- SUMMARY: Balancing sees no stock, no capacities and no countdowns: it runs in step with balancing the bare arena.
import Conveyor.Proofs.Efficiency.Upstream

/-!
# Bare arenas

Without stock, capacities and countdowns an arena is bare. Queries see no difference. A raise scales buffers
that can hold nothing to buffers that can hold nothing, so balancing an arena and balancing the bare arena
run in step: the same raises are made in the same order, or the same fault stops both. One run on a bare
arena thus tells of all arenas with its recipes, bindings and multipliers.
-/

namespace Conveyor

theorem Table.mapValues_mapValues {κ α β γ : Type} (g : β → γ) (f : α → β) (t : Table κ α) :
    (t.mapValues f).mapValues g = t.mapValues (g ∘ f) := by
  apply Table.ext_entries
  simp only [mapValues, List.map_map]
  rfl

/-- Values that are all the same tell of keys only. -/
theorem Table.mapValues_const_insert {κ α β : Type} [DecidableEq κ] {t : Table κ α} {k : κ} (hk : k ∈ t.keys) (v : α)
    (w : β) : (t.insert k v).mapValues (fun _ => w) = t.mapValues fun _ => w := by
  have hentries (u : Table κ α) : (u.mapValues fun _ => w).entries = u.keys.map (·, w) := by
    simp [mapValues, keys]
  apply Table.ext_entries
  rw [hentries, hentries, keys_insert, if_pos hk]

namespace Stream

/-- The stream with buffers that can hold nothing, and without a countdown. -/
def bare (s : Stream) : Stream := { s with buffers := s.buffers.mapValues fun _ => {}, next := none }

theorem alike_bare (s : Stream) : s.Alike s.bare := ⟨rfl, rfl, rfl⟩

theorem bare_scale (s : Stream) (mult : Int) : s.bare.scale mult = (s.scale mult).map bare := by
  have hsize : s.bare.buffers.size = s.buffers.size := List.length_map _
  have hresize (n : Int) : Buffer.resize {} ((0 * n).fdiv s.mult) = {} := by simp [Buffer.resize, Buffer.spill]
  rw [scale, scale, hsize, show s.bare.mult = s.mult from rfl]
  cases Decidable.em (s.mult = 0 ∧ s.buffers.size ≠ 0) with
  | inl hdiv =>
    rw [if_pos hdiv, if_pos hdiv]
    rfl
  | inr hdiv =>
    rw [if_neg hdiv, if_neg hdiv]
    simp only [bare, Except.map, Table.mapValues_mapValues, Function.comp_def, hresize]

/-- To change a buffer makes no difference. -/
theorem bare_insert {s : Stream} {p : Product} {b : Buffer} (hb : s.buffers.get? p = some b) (b' : Buffer) :
    bare { s with buffers := s.buffers.insert p b' } = s.bare := by
  simp only [bare, Table.mapValues_const_insert (Table.mem_keys_iff.2 ⟨b, hb⟩)]

end Stream

namespace Arena

variable {a : Arena} {i : Nat}

def bare (a : Arena) : Arena := ⟨a.streams.map Stream.bare⟩

@[simp] theorem size_bare (a : Arena) : a.bare.size = a.size := List.length_map _

theorem stream?_bare (a : Arena) (i : Nat) : a.bare.stream? i = (a.stream? i).map Stream.bare := List.getElem?_map

theorem stream_bare (a : Arena) (i : Nat) : a.bare.stream i = (a.stream i).map Stream.bare := by
  rw [stream, stream, stream?_bare]
  cases a.stream? i with
  | none => rfl
  | some s => rfl

theorem bare_modify {f g : Stream → Stream} (h : ∀ s, a.stream? i = some s → (f s).bare = g s.bare) :
    (a.modify i f).bare = a.bare.modify i g := by
  unfold bare modify
  congr 1
  refine List.ext_getElem? fun j => ?_
  simp only [List.getElem?_map, List.getElem?_modify]
  cases hs : a.streams[j]? with
  | none => split <;> rfl
  | some s =>
    split
    next hij => exact congrArg some (h s (hij ▸ hs))
    next => rfl

theorem bare_insert {s : Stream} {p : Product} {b : Buffer} (hs : a.stream? i = some s)
    (hb : s.buffers.get? p = some b) (b' : Buffer) :
    (a.modify i fun t => { t with buffers := t.buffers.insert p b' }).bare = a.bare := by
  have hbare : (a.modify i fun t => { t with buffers := t.buffers.insert p b' }).bare = a.bare.modify i id := by
    refine bare_modify fun t ht => ?_
    obtain rfl := Option.some.inj (hs.symm.trans ht)
    exact s.bare_insert hb b'
  rw [hbare, modify, List.modify_id]

theorem alike_bare (a : Arena) : a.Alike a.bare := by
  intro i
  unfold AlikeAt
  rw [stream?_bare]
  cases a.stream? i with
  | none => exact .none
  | some s => exact .some s.alike_bare

theorem rateOf_bare (a : Arena) (i : Nat) (p : Product) : a.bare.rateOf i p = a.rateOf i p :=
  ((a.alike_bare.answersAlike i).2 p).1.symm

/-- Slots ask for the same. -/
theorem ask_bare (a : Arena) (i : Nat) (slot : Slot) (ε : Float) : a.bare.ask ε i slot = a.ask ε i slot := by
  unfold ask weigh
  rw [stream_bare, stream_bare, rateOf_bare]
  cases a.stream slot.supplier with
  | error f => rfl
  | ok t =>
    cases a.stream i with
    | error f => rfl
    | ok s => rfl

end Arena

/-! ## Balancing -/

namespace Balancing

/-- The second balancing is of the bare arena, and its raises are those of the first. -/
def Bared (s t : Logged Balancing) : Prop :=
  t.state = ⟨s.state.arena.bare, s.state.changes⟩ ∧ t.least = s.least

variable {α β : Type} {s t : Logged Balancing} {ε : Float} {i n : Nat} {path : List Nat}

theorem Bared.bind_query (h : Bared s t) {f : Arena → Except Fault β} (hf : ∀ a, f a.bare = f a)
    {k k' : β → Action Balancing α} (hk : ∀ x, Action.InStep Bared (k x) (k' x) s t) :
    Action.InStep Bared (query f >>= k) (query f >>= k') s t := by
  change Action.InStep Bared (liftM (f s.state.arena) >>= k) (liftM (f t.state.arena) >>= k') s t
  rw [h.1, hf]
  exact Action.InStep.bind_lift h fun x _ => hk x

theorem Bared.bind_stream (h : Bared s t) {k k' : Stream → Action Balancing α}
    (hk : ∀ r : Stream, Action.InStep Bared (k r) (k' r.bare) s t) :
    Action.InStep Bared (query (·.stream i) >>= k) (query (·.stream i) >>= k') s t := by
  change Action.InStep Bared (liftM (s.state.arena.stream i) >>= k) (liftM (t.state.arena.stream i) >>= k') s t
  rw [h.1, Arena.stream_bare]
  exact Action.InStep.bind_lift_map h fun r _ => hk r

theorem bared_report (e : Event) : Action.Coupled Bared (Action.report e) (Action.report e) :=
  fun _ _ h => Action.InStep.report e h.2.symm h fun _ _ => h

theorem bared_scale (u : Nat) (new : Int) : Action.Coupled Bared (scale u new) (scale u new) := by
  intro s t h
  refine Action.InStep.bind_current ?_
  rw [h.1, Arena.stream_bare]
  refine Action.InStep.bind_lift_map h fun r _ => ?_
  refine Action.InStep.ite (fun _ => Action.InStep.pure _ h) fun _ => ?_
  rw [Stream.bare_scale]
  refine Action.InStep.bind_lift_map h fun r' _ => Action.InStep.bind_assign ?_
  refine Action.InStep.bind (bared_report _ _ _ ⟨?_, h.2⟩) fun _ _ _ h => Action.InStep.pure _ h
  have harena : (s.state.arena.modify u fun _ => r').bare = s.state.arena.bare.modify u fun _ => r'.bare :=
    Arena.bare_modify fun _ _ => rfl
  exact congrArg (Balancing.mk · _) harena.symm

/-- Slots call for the same. -/
theorem bared_slot {balance : Nat → Action Balancing Unit} {slot : Slot}
    (h : Action.Coupled Bared (balance slot.supplier) (balance slot.supplier)) (pending : Pending) :
    Action.Coupled Bared (Balancing.slot balance ε i pending slot) (Balancing.slot balance ε i pending slot) := by
  intro s t hst
  rw [slot_eq]
  refine hst.bind_query (fun a => a.ask_bare i slot ε) fun ask => ?_
  cases ask with
  | nothing => exact Action.InStep.pure pending hst
  | unsupplied => exact (bared_report _ s t hst).bind fun _ _ _ hst => Action.InStep.pure pending hst
  | copies mult => exact Action.InStep.pure _ hst
  | balance => exact (h s t hst).bind fun _ _ _ hst => Action.InStep.pure pending hst

theorem bared_balance (i : Nat) : Action.Coupled Bared (balance ε n path i) (balance ε n path i) := by
  induction hr : Path.remaining n path using Nat.strong_induction_on generalizing path i with
  | _ r ih =>
  subst hr
  intro s t h
  rw [balance]
  split
  · exact Action.InStep.lift _ h
  next hnew =>
  refine h.bind_query (fun a => (a.alike_bare.answersAlike i).1.symm) fun efficiency => ?_
  refine Action.InStep.ite (fun _ => Action.InStep.pure () h) fun _ => ?_
  split
  next hlt =>
    have hnested (u : Nat) : Action.Coupled Bared (balance ε n (i :: path) u) (balance ε n (i :: path) u) :=
      ih _ (Path.remaining_cons_lt hlt hnew) u rfl
    refine h.bind_stream fun r => Action.InStep.bind (Action.InStep.foldlM (fun pending slot _ =>
      bared_slot (hnested slot.supplier) pending) ∅ h) fun pending s t h => ?_
    refine Action.InStep.forM (fun raise _ s t h => ?_) h
    refine (bared_scale raise.1 raise.2 s t h).bind fun made s t h => ?_
    exact Action.InStep.ite (fun _ => hnested raise.1 s t h) fun _ => Action.InStep.pure () h
  next => exact Action.InStep.pure () h

end Balancing

/-- Balancing makes the raises that it would make of the bare arena, and leaves what is bare the same. -/
theorem Arena.solve_bare (i : Nat) (ε : Float) (s : Logged Arena) :
    Action.InStep (fun s t => t.state = s.state.bare ∧ t.least = s.least) (Arena.solve i ε) (Arena.solve i ε)
      s { state := s.state.bare, least := s.least } := by
  refine Action.InStep.focus (S := Balancing.Bared) ?_ fun u v h => ⟨congrArg Balancing.arena h.1, h.2⟩
  refine Action.InStep.bind_current ?_
  change Action.InStep _ (Balancing.balance ε s.state.size [] i >>= _) (Balancing.balance ε s.state.bare.size [] i >>= _) _ _
  rw [Arena.size_bare]
  let start : Logged Balancing := { s with state := ⟨s.state, []⟩ }
  have hstep : Balancing.Bared start { state := ⟨s.state.bare, []⟩, least := s.least } := ⟨rfl, rfl⟩
  refine (Balancing.bared_balance i _ _ hstep).bind fun _ u v h => Action.InStep.bind_current ?_
  rw [h.1]
  exact Action.InStep.pure _ h

end Conveyor
