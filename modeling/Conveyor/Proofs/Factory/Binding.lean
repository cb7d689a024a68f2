-- SUMMARY: What becomes of a tree of recipe calls: one stream per call, arguments first, or the fault of the first check that fails.
import Conveyor.Proofs.Factory.Refusals

/-!
# Trees of calls

The definition of a stream is a tree: recipe calls with calls and references below them. Registration
walks it once, with the number of streams in the arena as its only counter. Here the tree is looked at
without the walk. Its calls are listed with arguments before the call they belong to; the place in the
list tells the index of a call, the indices that its slots are bound to, and how many streams are there
already when a check fails.
-/

namespace Conveyor

/-! ## Calls of a tree -/

namespace Value

mutual

/-- The recipe calls of a value, from left to right, arguments before the call. -/
def calls : Value → List Value
  | .call recipe args mult => callsAll args ++ [.call recipe args mult]
  | _ => []

/-- The recipe calls of some values, one value after another. -/
def callsAll : List Value → List Value
  | [] => []
  | v :: vs => calls v ++ callsAll vs

end

theorem callsAll_append (vs ws : List Value) : callsAll (vs ++ ws) = callsAll vs ++ callsAll ws := by
  induction vs with
  | nil => rfl
  | cons v vs ih => rw [List.cons_append, callsAll, callsAll, ih, List.append_assoc]

theorem length_calls_call (recipe : Value) (args : List Value) (mult : Value) :
    (calls (.call recipe args mult)).length = (callsAll args).length + 1 := by
  rw [calls, List.length_append]
  rfl

end Value

namespace Factory

/-! ## What calls become -/

section Targets

variable (f : Factory)

/-- The index that a value is bound to if its first call comes to index `n`: the stream of a reference is
there, and that of a call comes after those of its arguments. -/
def target (n : Nat) : Value → Nat
  | .stream (.text name) => f.streams.getD name 0
  | v => n + v.calls.length - 1

/-- The indices that some values are bound to, where the first call among them comes to index `n`. -/
def targets (n : Nat) : List Value → List Nat
  | [] => []
  | v :: vs => f.target n v :: targets (n + v.calls.length) vs

/-- The slots of a recipe, bound in order to some values. -/
def slotsOf (n : Nat) (recipe : Recipe) (args : List Value) : List Slot :=
  List.zipWith (fun part i => ⟨part.product, i⟩) recipe.inputs (f.targets n args)

/-- The label and the stream that a call becomes at an index. The calls among its arguments come right
before it. -/
def entryOf (index : Nat) : Value → Option (String × Stream)
  | .call (.text name) args (.int mult) => (f.recipes.get? name).map fun recipe =>
    (name ++ "#" ++ toString index,
      Stream.fresh recipe (f.slotsOf (index - (Value.callsAll args).length) recipe args) mult
        f.config.bufferMultiplier)
  | _ => none

/-- The calls become these entries, one each, at indices in a row from `n` on. -/
def Becomes (n : Nat) (calls : List Value) (entries : List (String × Stream)) : Prop :=
  calls.mapIdx (fun k call => f.entryOf (n + k) call) = entries.map some

end Targets

variable {f : Factory} {owner : String} {n : Nat}

theorem target_call (n : Nat) (recipe : Value) (args : List Value) (mult : Value) :
    f.target n (.call recipe args mult) = n + (Value.calls (.call recipe args mult)).length - 1 := by
  rw [target]
  exact nofun

theorem length_targets (n : Nat) (vs : List Value) : (f.targets n vs).length = vs.length := by
  induction vs generalizing n with
  | nil => rfl
  | cons v vs ih => rw [targets, List.length_cons, List.length_cons, ih]

namespace Becomes

variable {calls calls' : List Value} {entries entries' : List (String × Stream)}

theorem nil : Becomes f n [] [] := rfl

theorem length_eq (h : Becomes f n calls entries) : entries.length = calls.length := by
  have hlength := congrArg List.length h
  rw [List.length_mapIdx, List.length_map] at hlength
  exact hlength.symm

theorem append (h : Becomes f n calls entries) (h' : Becomes f (n + calls.length) calls' entries') :
    Becomes f n (calls ++ calls') (entries ++ entries') := by
  unfold Becomes at *
  rw [List.mapIdx_append, List.map_append, h, ← h']
  simp only [Nat.add_assoc, Nat.add_comm calls.length]

/-- Each entry comes from a call. -/
theorem exists_call (h : Becomes f n calls entries) {entry : String × Stream} (hentry : entry ∈ entries) :
    ∃ index call, f.entryOf index call = some entry := by
  have hmem := List.mem_map_of_mem (f := some) hentry
  rw [← h] at hmem
  obtain ⟨k, hk, hcall⟩ := List.mem_mapIdx.1 hmem
  exact ⟨n + k, calls[k], hcall⟩

/-- The buffers of the entries are empty, one for each product that comes out. -/
theorem get?_buffers (h : Becomes f n calls entries) {entry : String × Stream} (hentry : entry ∈ entries) (p : Product) :
    entry.2.buffers.get? p = if p ∈ entry.2.recipe.outputs.map Part.product then
      some ⟨0, entry.2.recipe.yieldOf p * f.config.bufferMultiplier * entry.2.mult⟩ else none := by
  obtain ⟨index, call, hcall⟩ := h.exists_call hentry
  unfold entryOf at hcall
  split at hcall
  · obtain ⟨recipe, _, rfl⟩ := Option.map_eq_some_iff.1 hcall
    exact Stream.get?_fresh _ _ _ _ _
  · cases hcall

theorem singleton {call : Value} {entry : String × Stream} (h : f.entryOf n call = some entry) :
    Becomes f n [call] [entry] := congrArg (· :: []) h

end Becomes

/-! ## Checks -/

/-- Every check passes: calls name registered recipes and have copies and arguments as they should, and
references name registered streams. -/
inductive Bindable (f : Factory) : Value → Prop
  | stream {name : String} {i : Nat} (registered : f.streams.get? name = some i) :
      Bindable f (.stream (.text name))
  | call {name : String} {recipe : Recipe} {args : List Value} {mult : Int}
      (registered : f.recipes.get? name = some recipe) (copies : 1 ≤ mult)
      (count : args.length = recipe.inputs.length) (args_bindable : ∀ arg ∈ args, Bindable f arg) :
      Bindable f (.call (.text name) args (.int mult))

/-- What is checked of a value before its arguments are looked at, in this order. -/
def check (f : Factory) (owner : String) : Value → Except Fault Unit
  | .stream name => do
    let _ ← resolve .stream f.streams name
    return ()
  | .call name args mult => do
    let recipe ← resolve .recipe f.recipes name
    let _ ← requireInt .multiplier (some owner) 1 mult
    if args.length ≠ recipe.inputs.length then
      Refusal.fail (.argumentCount name.label recipe.inputs.length args.length owner)
    else return ()
  | v => Refusal.fail (.notABinding v owner)

/-- The first check that fails does so with this fault, after so many calls have passed all of theirs. A
call is checked before its arguments, and those from left to right. -/
inductive Stops (f : Factory) (owner : String) : Value → Fault → Nat → Prop
  | head {v : Value} {fault : Fault} (fails : f.check owner v = .error fault) : Stops f owner v fault 0
  | argument {name mult v : Value} {before behind : List Value} {fault : Fault} {k : Nat}
      (passes : f.check owner (.call name (before ++ v :: behind) mult) = .ok ())
      (before_bindable : ∀ arg ∈ before, Bindable f arg) (stops : Stops f owner v fault k) :
      Stops f owner (.call name (before ++ v :: behind) mult) fault ((Value.callsAll before).length + k)

theorem eq_int_of_requireInt {quantity : Quantity} {least k : Int} {value : Value}
    (h : requireInt quantity (some owner) least value = .ok k) : value = .int k := by
  unfold requireInt at h
  cases value with
  | int m =>
    simp only [Value.int?] at h
    split at h
    · cases h
    · rw [Except.ok.inj h]
  | _ => cases h

theorem check_call {name mult : Value} {args : List Value} {recipe : Recipe} {copies : Int}
    (hrecipe : resolve .recipe f.recipes name = .ok recipe)
    (hcopies : requireInt .multiplier (some owner) 1 mult = .ok copies)
    (hcount : args.length = recipe.inputs.length) : f.check owner (.call name args mult) = .ok () := by
  simp only [check, hrecipe, hcopies, Bind.bind, Except.bind, if_neg (not_not.2 hcount)]
  rfl

theorem Bindable.check {v : Value} (h : Bindable f v) (owner : String) : f.check owner v = .ok () := by
  cases h with
  | stream registered =>
    rw [Factory.check, resolve_eq_ok registered]
    rfl
  | call registered copies count _ => exact check_call (resolve_eq_ok registered) (requireInt_of_le copies) count

/-- What passes every check is not stopped. -/
theorem Bindable.not_stops {v : Value} (h : Bindable f v) (fault : Fault) (k : Nat) : ¬ Stops f owner v fault k := by
  intro hstops
  induction hstops with
  | head fails => cases (h.check owner).symm.trans fails
  | argument _ _ _ ih =>
    cases h with
    | call _ _ _ args_bindable => exact ih (args_bindable _ (List.mem_append_right _ List.mem_cons_self))

/-- A list is split in one way only at its first item without a property. -/
theorem eq_of_first {α : Type} {P : α → Prop} {before before' behind behind' : List α} {x x' : α}
    (h : before ++ x :: behind = before' ++ x' :: behind') (hbefore : ∀ y ∈ before, P y) (hx : ¬ P x)
    (hbefore' : ∀ y ∈ before', P y) (hx' : ¬ P x') : before = before' ∧ x = x' := by
  induction before generalizing before' with
  | nil =>
    cases before' with
    | nil => exact ⟨rfl, List.head_eq_of_cons_eq h⟩
    | cons y before' => exact absurd (hbefore' y List.mem_cons_self) (List.head_eq_of_cons_eq h ▸ hx)
  | cons y before ih =>
    cases before' with
    | nil => exact absurd (hbefore y List.mem_cons_self) (List.head_eq_of_cons_eq h ▸ hx')
    | cons y' before' =>
      obtain ⟨rfl, htail⟩ := List.cons.inj h
      obtain ⟨rfl, rfl⟩ := ih htail (List.forall_mem_cons.1 hbefore).2 (List.forall_mem_cons.1 hbefore').2
      exact ⟨rfl, rfl⟩

/-- There is only one first check that fails. -/
theorem Stops.unique {v : Value} {fault fault' : Fault} {k k' : Nat} (h : Stops f owner v fault k)
    (h' : Stops f owner v fault' k') : fault = fault' ∧ k = k' := by
  induction h generalizing fault' k' with
  | head fails =>
    cases h' with
    | head fails' => exact ⟨Except.error.inj (fails.symm.trans fails'), rfl⟩
    | argument passes => cases fails.symm.trans passes
  | @argument name mult v before behind _ _ passes before_bindable stops ih =>
    generalize hargs : before ++ v :: behind = args at h' passes
    cases h' with
    | head fails => cases fails.symm.trans passes
    | argument _ before_bindable' stops' =>
      obtain ⟨rfl, rfl⟩ := eq_of_first hargs before_bindable (fun h => h.not_stops _ _ stops) before_bindable'
        fun h => h.not_stops _ _ stops'
      obtain ⟨rfl, rfl⟩ := ih stops'
      exact ⟨rfl, rfl⟩

/-- No more calls have passed than there are. -/
theorem Stops.le_length {v : Value} {fault : Fault} {k : Nat} (h : Stops f owner v fault k) : k ≤ v.calls.length := by
  induction h with
  | argument _ _ _ ih =>
    rw [Value.length_calls_call, Value.callsAll_append, Value.callsAll, List.length_append, List.length_append]
    omega
  | head => exact Nat.zero_le _

/-! ## The walk -/

/-- Entries added to a factory: streams behind the others, with their labels. -/
def extend (s : Logged Factory) (entries : List (String × Stream)) : Logged Factory :=
  { s with state := { s.state with
      arena := ⟨s.state.arena.streams ++ entries.map Prod.snd⟩
      labels := s.state.labels ++ entries.map Prod.fst } }

@[simp] theorem extend_nil (s : Logged Factory) : extend s [] = s := by
  simp only [extend, List.map_nil, List.append_nil]

@[simp] theorem extend_extend (s : Logged Factory) (entries entries' : List (String × Stream)) :
    extend (extend s entries) entries' = extend s (entries ++ entries') := by
  simp only [extend, List.map_append, List.append_assoc]

/-- The walk has come to `s`: `n` streams are there, and the tables are still those of `f`, whose names
lead to some of these streams. -/
structure Reached (f : Factory) (n : Nat) (s : Logged Factory) : Prop where
  recipes : s.state.recipes = f.recipes
  streams : s.state.streams = f.streams
  config : s.state.config = f.config
  size : s.state.arena.size = n
  index_lt : ∀ name i, f.streams.get? name = some i → i < n

theorem Reached.extend {s : Logged Factory} {calls : List Value} {entries : List (String × Stream)}
    (h : Reached f n s) (hbecomes : Becomes f n calls entries) :
    Reached f (n + calls.length) (extend s entries) where
  recipes := h.recipes
  streams := h.streams
  config := h.config
  size := by
    rw [← h.size, ← hbecomes.length_eq]
    simp [Factory.extend, Arena.size]
  index_lt name i hi := Nat.lt_of_lt_of_le (h.index_lt name i hi) (Nat.le_add_right _ _)

/-- A stream may be added if those that it is bound to are there. -/
theorem wp_append {s : Logged Factory} (h : Reached f n s) {recipeName : String} {recipe : Recipe}
    {bindings : List (Product × Nat)} {mult : Int} (hlength : bindings.length = recipe.inputs.length)
    (hmult : 1 ≤ mult) (hlt : ∀ binding ∈ bindings, binding.2 < n) :
    (append owner recipeName recipe bindings mult).wp
      (fun i t => i = n ∧ t = extend s [(recipeName ++ "#" ++ toString n,
        Stream.fresh recipe (bindings.map fun binding => ⟨binding.1, binding.2⟩) mult f.config.bufferMultiplier)])
      (fun _ _ => False) s := by
  have hslots : (bindings.map fun binding => (binding.1, (binding.2 : Int))).mapM
      (fun binding => s.state.arena.slot binding.1 binding.2) =
      .ok (bindings.map fun binding => (⟨binding.1, binding.2⟩ : Slot)) := by
    rw [Result.mapM_eq_ok, List.forall₂_map_left_iff, List.forall₂_map_right_iff, List.forall₂_same]
    intro binding hbinding
    have hindex : 0 ≤ (binding.2 : Int) ∧ (binding.2 : Int) < s.state.arena.size :=
      ⟨Int.natCast_nonneg _, h.size.symm ▸ Int.ofNat_lt.2 (hlt binding hbinding)⟩
    exact if_pos hindex
  have hadd : s.state.arena.add recipe (bindings.map fun binding => (binding.1, (binding.2 : Int))) mult
      s.state.config.bufferMultiplier = .ok (n, ⟨s.state.arena.streams ++
        [Stream.fresh recipe (bindings.map fun binding => ⟨binding.1, binding.2⟩) mult f.config.bufferMultiplier]⟩) := by
    unfold Arena.add
    rw [if_neg (by rw [List.length_map]; exact not_not.2 hlength), if_neg (Int.not_lt.2 hmult), h.config]
    exact Result.bind_eq_ok.2 ⟨_, hslots, h.size ▸ rfl⟩
  refine Action.wp.bind_current (Action.wp.bind_ok (congrArg (ownedBy owner) hadd) ?_)
  exact ⟨rfl, rfl⟩

/-- Binding some values has gone through: all checks have passed, and all calls have become streams. -/
structure Goes (f : Factory) (n : Nat) (vs : List Value) (s t : Logged Factory) : Prop where
  bindable : ∀ v ∈ vs, Bindable f v
  index_lt : ∀ i ∈ f.targets n vs, i < n + (Value.callsAll vs).length
  entries : ∃ entries, Becomes f n (Value.callsAll vs) entries ∧ t = extend s entries

/-- Binding the value has been stopped by a check, and the calls that had passed have become streams. -/
def Halts (f : Factory) (owner : String) (n : Nat) (v : Value) (s : Logged Factory) (fault : Fault)
    (t : Logged Factory) : Prop :=
  ∃ k entries, Stops f owner v fault k ∧ Becomes f n (v.calls.take k) entries ∧ t = extend s entries

theorem Halts.head {v : Value} {s : Logged Factory} {fault : Fault} (h : f.check owner v = .error fault) :
    Halts f owner n v s fault s :=
  ⟨0, [], .head h, Becomes.nil, (extend_nil s).symm⟩

namespace Goes

variable {s t u : Logged Factory} {v : Value} {vs : List Value}

theorem nil : Goes f n [] s s where
  bindable _ hv := absurd hv List.not_mem_nil
  index_lt _ hi := absurd hi List.not_mem_nil
  entries := ⟨[], Becomes.nil, (extend_nil s).symm⟩

theorem reached (h : Goes f n vs s t) (hs : Reached f n s) : Reached f (n + (Value.callsAll vs).length) t := by
  obtain ⟨entries, hbecomes, rfl⟩ := h.entries
  exact hs.extend hbecomes

theorem cons (h : Goes f n [v] s t) (h' : Goes f (n + v.calls.length) vs t u) : Goes f n (v :: vs) s u where
  bindable := List.forall_mem_cons.2 ⟨h.bindable v (List.mem_singleton_self v), h'.bindable⟩
  index_lt i hi := by
    have hv := h.index_lt
    have hvs := h'.index_lt
    simp only [targets, Value.callsAll, List.mem_cons, List.length_append] at hv hvs hi ⊢
    rcases hi with rfl | hi
    · have := hv _ (.inl rfl)
      simp only [List.length_nil] at this
      omega
    · have := hvs i hi
      omega
  entries := by
    obtain ⟨entries, hbecomes, rfl⟩ := h.entries
    obtain ⟨entries', hbecomes', rfl⟩ := h'.entries
    rw [Value.callsAll, Value.callsAll, List.append_nil] at hbecomes
    exact ⟨entries ++ entries', hbecomes.append hbecomes', extend_extend _ _ _⟩

/-- A call that passes its checks becomes a stream behind those of its arguments. -/
theorem call {name : String} {recipe : Recipe} {args : List Value} {mult : Int}
    (h : Goes f n args s t) (registered : f.recipes.get? name = some recipe) (copies : 1 ≤ mult)
    (count : args.length = recipe.inputs.length) :
    Goes f n [.call (.text name) args (.int mult)] s (extend t
      [(name ++ "#" ++ toString (n + (Value.callsAll args).length),
        Stream.fresh recipe (f.slotsOf n recipe args) mult f.config.bufferMultiplier)]) where
  bindable := List.forall_mem_singleton.2 (.call registered copies count h.bindable)
  index_lt i hi := by
    obtain rfl := List.mem_singleton.1 hi
    rw [target_call, Value.callsAll, Value.callsAll, List.append_nil, Value.length_calls_call]
    omega
  entries := by
    obtain ⟨entries, hbecomes, rfl⟩ := h.entries
    refine ⟨_, ?_, extend_extend _ _ _⟩
    rw [Value.callsAll, Value.callsAll, List.append_nil, Value.calls]
    refine hbecomes.append (Becomes.singleton ?_)
    rw [entryOf, registered, Option.map_some, Nat.add_sub_cancel]

end Goes

/-- One value after another is bound, each where the calls of those before it end. -/
theorem wp_bindAll {vs : List Value} (h : ∀ v ∈ vs, ∀ n s, Reached f n s →
      (bind owner v).wp (fun i t => Goes f n [v] s t ∧ i = f.target n v) (Halts f owner n v s) s)
    {ps : List Product} (hlength : vs.length = ps.length) {s : Logged Factory} (hs : Reached f n s) :
    (bindAll owner ps vs).wp
      (fun bindings t => Goes f n vs s t ∧ bindings = ps.zip (f.targets n vs))
      (fun fault t => ∃ before v behind u, vs = before ++ v :: behind ∧ Goes f n before s u ∧
        Halts f owner (n + (Value.callsAll before).length) v u fault t) s := by
  induction vs generalizing n ps s with
  | nil =>
    obtain rfl := List.length_eq_zero_iff.1 hlength.symm
    exact Action.wp.pure ⟨Goes.nil, rfl⟩
  | cons v vs ih =>
    obtain ⟨p, ps, rfl⟩ := List.exists_cons_of_length_eq_add_one hlength.symm
    rw [bindAll]
    refine Action.wp.bind ((h v List.mem_cons_self n s hs).weaken ?_ ?_)
    · rintro i u ⟨hgoes, rfl⟩
      have hu := hgoes.reached hs
      rw [Value.callsAll, Value.callsAll, List.append_nil] at hu
      have hrest := ih (fun w hw => h w (List.mem_cons_of_mem v hw)) (Nat.succ.inj hlength) hu
      refine Action.wp.bind (hrest.weaken ?_ ?_)
      · rintro rest t ⟨ht, rfl⟩
        exact Action.wp.pure ⟨hgoes.cons ht, rfl⟩
      · rintro fault t ⟨before, w, behind, u', rfl, hbefore, hhalts⟩
        refine ⟨v :: before, w, behind, u', rfl, hgoes.cons hbefore, ?_⟩
        rwa [Value.callsAll, List.length_append, ← Nat.add_assoc]
    · exact fun fault t ht => ⟨[], v, vs, s, rfl, Goes.nil, ht⟩

/-- A call halts where one of its arguments does. -/
theorem Halts.argument {name mult v : Value} {before behind : List Value} {fault : Fault} {s u t : Logged Factory}
    (passes : f.check owner (.call name (before ++ v :: behind) mult) = .ok ()) (hgoes : Goes f n before s u)
    (h : Halts f owner (n + (Value.callsAll before).length) v u fault t) :
    Halts f owner n (.call name (before ++ v :: behind) mult) s fault t := by
  obtain ⟨k, entries', hstops, hbecomes', rfl⟩ := h
  obtain ⟨entries, hbecomes, rfl⟩ := hgoes.entries
  have htake : (Value.calls (.call name (before ++ v :: behind) mult)).take ((Value.callsAll before).length + k) =
      Value.callsAll before ++ v.calls.take k := by
    rw [Value.calls, Value.callsAll_append, Value.callsAll, List.append_assoc, List.append_assoc,
      List.take_length_add_append, List.take_append_of_le_length hstops.le_length]
  refine ⟨_, entries ++ entries', .argument passes hgoes.bindable hstops, ?_, extend_extend _ _ _⟩
  exact htake ▸ hbecomes.append hbecomes'

/-- A name goes through if it is one of a stream that is there. -/
theorem wp_bind_stream (owner : String) (name : Value) {s : Logged Factory} (hs : Reached f n s) :
    (bind owner (.stream name)).wp (fun i t => Goes f n [.stream name] s t ∧ i = f.target n (.stream name))
      (Halts f owner n (.stream name) s) s := by
  rw [bind]
  refine Action.wp.bind_current (Action.wp.lift (fun i hi => ?_) fun fault hfault => ?_)
  · rw [hs.streams] at hi
    obtain ⟨text, rfl, hregistered⟩ := get?_of_resolve hi
    have htarget : f.target n (.stream (.text text)) = i := by
      rw [target, Table.getD, hregistered, Option.getD_some]
    refine ⟨⟨?_, ?_, [], Becomes.nil, (extend_nil s).symm⟩, htarget.symm⟩
    · exact fun v hv => List.mem_singleton.1 hv ▸ .stream hregistered
    · intro j hj
      obtain rfl := List.mem_singleton.1 hj
      rw [htarget]
      exact Nat.lt_of_lt_of_le (hs.index_lt text i hregistered) (Nat.le_add_right _ _)
  · rw [hs.streams] at hfault
    exact .head (by rw [check, hfault]; rfl)

/-- Once the arguments of a call have gone through, its stream is added behind theirs. -/
theorem Goes.wp_append {name : String} {recipe : Recipe} {args : List Value} {mult : Int} {s t : Logged Factory}
    (hgoes : Goes f n args s t) (hs : Reached f n s) (hregistered : f.recipes.get? name = some recipe)
    (hmult : 1 ≤ mult) (hcount : args.length = recipe.inputs.length) :
    (append owner name recipe ((recipe.inputs.map Part.product).zip (f.targets n args)) mult).wp
      (fun i u => Goes f n [.call (.text name) args (.int mult)] s u ∧
        i = f.target n (.call (.text name) args (.int mult))) (fun _ _ => False) t := by
  have hbindings : (((recipe.inputs.map Part.product).zip (f.targets n args)).map
      fun binding => (⟨binding.1, binding.2⟩ : Slot)) = f.slotsOf n recipe args := by
    rw [slotsOf, List.zip_map_left, List.map_map, List.zip, List.map_zipWith]
    rfl
  have hlength : ((recipe.inputs.map Part.product).zip (f.targets n args)).length = recipe.inputs.length := by
    rw [List.length_zip, length_targets, List.length_map, hcount, Nat.min_self]
  have hlt : ∀ binding ∈ (recipe.inputs.map Part.product).zip (f.targets n args),
      binding.2 < n + (Value.callsAll args).length :=
    fun binding hbinding => hgoes.index_lt _ (List.of_mem_zip hbinding).2
  refine (Factory.wp_append (hgoes.reached hs) hlength hmult hlt).weaken ?_ fun _ _ h => h
  rintro _ _ ⟨rfl, rfl⟩
  rw [hbindings]
  refine ⟨hgoes.call hregistered hmult hcount, ?_⟩
  rw [target_call, Value.length_calls_call]
  rfl

/-- A call is checked, then its arguments are bound, and then it becomes a stream. -/
theorem wp_bind_call {name mult : Value} {args : List Value}
    (h : ∀ v ∈ args, ∀ n s, Reached f n s →
      (bind owner v).wp (fun i t => Goes f n [v] s t ∧ i = f.target n v) (Halts f owner n v s) s)
    {s : Logged Factory} (hs : Reached f n s) :
    (bind owner (.call name args mult)).wp
      (fun i t => Goes f n [.call name args mult] s t ∧ i = f.target n (.call name args mult))
      (Halts f owner n (.call name args mult) s) s := by
  rw [bind]
  refine Action.wp.bind_current (Action.wp.bind_lift (fun fault hfault => ?_) fun recipe hrecipe => ?_)
  · exact .head (by rw [check, ← hs.recipes, hfault]; rfl)
  rw [hs.recipes] at hrecipe
  refine Action.wp.bind_lift (fun fault hfault => ?_) fun copies hcopies => ?_
  · exact .head (by simp only [check, hrecipe, hfault, Bind.bind, Except.bind])
  refine .ite (fun hcount => ?_) fun hcount => ?_
  · refine Action.wp.lift (fun _ h => by cases h) fun fault hfault => .head ?_
    obtain rfl : _ = fault := Except.error.inj hfault
    simp only [check, hrecipe, hcopies, Bind.bind, Except.bind, if_pos hcount]
    rfl
  have hcounted : args.length = recipe.inputs.length := Decidable.not_not.1 hcount
  have hlength : args.length = (recipe.inputs.map Part.product).length := by rwa [List.length_map]
  refine Action.wp.bind ((wp_bindAll h hlength hs).weaken ?_ ?_)
  · rintro bindings t ⟨hgoes, rfl⟩
    obtain ⟨text, rfl, hregistered⟩ := get?_of_resolve hrecipe
    obtain rfl := eq_int_of_requireInt hcopies
    have hmult := le_of_requireInt hcopies
    exact (hgoes.wp_append hs hregistered hmult hcounted).weaken (fun _ _ h => h) fun _ _ h => h.elim
  · rintro fault t ⟨before, v, behind, u, rfl, hgoes, hhalts⟩
    exact .argument (check_call hrecipe hcopies hcounted) hgoes hhalts

/-- Binding a value either goes through, and the value stands for its target, or halts. -/
theorem wp_bind (owner : String) : ∀ v n s, Reached f n s →
    (bind owner v).wp (fun i t => Goes f n [v] s t ∧ i = f.target n v) (Halts f owner n v s) s
  | .stream name => fun _ _ hs => wp_bind_stream owner name hs
  | .call _ _ _ => fun _ _ hs => wp_bind_call (fun v _ => wp_bind owner v) hs
  | .none | .bool _ | .int _ | .real _ | .text _ | .list _ | .record _ | .part _ _ => by
    intro n s hs
    rw [bind]
    · exact Action.wp.lift (fun _ h => by cases h) fun fault h =>
        .head (congrArg Except.error (Except.error.inj h))
    all_goals intros; contradiction

/-! ## Registering -/

/-- Every stream has a label, and names lead to streams that are there. -/
structure Aligned (f : Factory) : Prop where
  labels_length : f.labels.length = f.arena.size
  index_lt : ∀ name i, f.streams.get? name = some i → i < f.arena.size

theorem WellFormed.aligned (h : f.WellFormed) : f.Aligned := ⟨h.labels_length, fun _ _ => h.index_lt⟩

theorem Aligned.reached {s : Logged Factory} (h : s.state.Aligned) : Reached s.state s.state.arena.size s :=
  ⟨rfl, rfl, rfl, rfl, h.index_lt⟩

/-- Cutting a factory back takes off what has been added to it. -/
theorem truncate_extend {s : Logged Factory} (h : s.state.Aligned) (entries : List (String × Stream)) :
    { extend s entries with state := (extend s entries).state.truncate s.state.arena.size } = s := by
  have harena : Arena.truncate ⟨s.state.arena.streams ++ entries.map Prod.snd⟩ s.state.arena.size = s.state.arena := by
    simp [Arena.truncate, Arena.cut, Arena.size]
  have hlabels : (s.state.labels ++ entries.map Prod.fst).take s.state.arena.size = s.state.labels :=
    List.take_left' h.labels_length
  rw [Factory.truncate, extend, harena, hlabels]

/-- The factory where a name leads to an index and is its label. -/
def withName (f : Factory) (name : String) (index : Nat) : Factory :=
  { f with
    streams := f.streams.insert name index
    labels := f.labels.set index name }

/-- What a definition that cannot be registered leaves: nothing if it is refused, and after any other
fault the streams of the calls that had passed. -/
structure Leaves (name : String) (definition : Value) (s : Logged Factory) (fault : Fault) (t : Logged Factory)
    (k : Nat) : Prop where
  stops : Stops s.state name definition fault k
  undone : ∀ r, fault = .refused r → t = s
  left : (∀ r, fault ≠ .refused r) →
    ∃ entries, Becomes s.state s.state.arena.size (definition.calls.take k) entries ∧ t = extend s entries

/-- A call is registered under a new name if all of its checks pass, and leaves what it leaves if one fails. -/
theorem wp_registerStream {s : Logged Factory} (hs : s.state.Aligned) {name : String}
    (hname : s.state.streams.get? name = none) (recipe : Value) (args : List Value) (mult : Value) :
    (registerStream name (.call recipe args mult)).wp
      (fun index t => Bindable s.state (.call recipe args mult) ∧
        index = s.state.arena.size + (Value.calls (.call recipe args mult)).length - 1 ∧
        ∃ entries, Becomes s.state s.state.arena.size (Value.calls (.call recipe args mult)) entries ∧
          t.state = (extend s entries).state.withName name index)
      (fun fault t => ∃ k, Leaves name (.call recipe args mult) s fault t k) s := by
  refine Action.wp.bind_current (.ite (fun h => ?_) fun _ => ?_)
  · rw [Table.contains_eq_false_iff.2 hname] at h
    cases h
  refine Action.wp.bind (wp_undoingStreams ((wp_bind name _ _ s hs.reached).weaken ?answers ?stops))
  case answers =>
    rintro index t ⟨hgoes, rfl⟩
    obtain ⟨entries, hbecomes, rfl⟩ := hgoes.entries
    rw [Value.callsAll, Value.callsAll, List.append_nil] at hbecomes
    have hbindable := hgoes.bindable _ (List.mem_singleton_self _)
    refine Action.wp.bind (Action.wp.update (Action.wp.bind (Action.wp.report_of_writable rfl ?_ ?_)))
    · exact Action.wp.pure ⟨hbindable, target_call _ _ _ _, entries, hbecomes, rfl⟩
    · exact Action.wp.pure ⟨hbindable, target_call _ _ _ _, entries, hbecomes, rfl⟩
  case stops =>
    rintro fault t ⟨k, entries, hstops, hbecomes, rfl⟩
    refine ⟨fun r hr => ⟨k, hstops, fun _ _ => truncate_extend hs entries, fun h => absurd hr (h r)⟩, fun hforeign => ?_⟩
    exact ⟨k, hstops, fun r hr => absurd hr (hforeign r), fun _ => ⟨entries, hbecomes, rfl⟩⟩

/-- A name that is taken is refused. -/
theorem wp_registerStream_of_taken {s : Logged Factory} {name : String} (hname : s.state.streams.get? name ≠ none)
    (definition : Value) :
    (registerStream name definition).wp (fun _ _ => False)
      (fun fault t => fault = .refused (.duplicate .stream name) ∧ t = s) s := by
  refine Action.wp.bind_current (.ite (fun _ => ?_) fun h => ?_)
  · exact Action.wp.lift nofun fun fault hfault => ⟨(Except.error.inj hfault).symm, rfl⟩
  · exact absurd (Table.contains_eq_false_iff.1 (Bool.eq_false_iff.2 h)) hname

/-- A definition is compiled. It is registered under a new name just if all of its checks pass; then every
call in it has become a stream, arguments before the call, and the last of them has the name. Otherwise
the first check that fails tells the fault, and a refusal leaves nothing behind. -/
theorem registerStream_compiles {s : Logged Factory} (hs : s.state.Aligned) {name : String}
    (hname : s.state.streams.get? name = none) (recipe : Value) (args : List Value) (mult : Value) :
    let f := s.state
    let n := f.arena.size
    let definition := Value.call recipe args mult
    ((∃ index t, registerStream name definition s = .ok index t) ↔ f.Bindable definition) ∧
      (∀ index t, registerStream name definition s = .ok index t →
        index = n + definition.calls.length - 1 ∧
          ∃ entries, f.Becomes n definition.calls entries ∧ entries.length = definition.calls.length ∧
            (∀ entry ∈ entries, ∀ p, entry.2.buffers.get? p =
              if p ∈ entry.2.recipe.outputs.map Part.product then
                some ⟨0, entry.2.recipe.yieldOf p * f.config.bufferMultiplier * entry.2.mult⟩ else none) ∧
            t.state = { f with
              arena := ⟨f.arena.streams ++ entries.map Prod.snd⟩
              labels := (f.labels ++ entries.map Prod.fst).set index name
              streams := f.streams.insert name index }) ∧
      (∀ fault, (∃ t, registerStream name definition s = .error fault t) ↔ ∃ k, f.Stops name definition fault k) ∧
      ∀ r t, registerStream name definition s = .error (.refused r) t → t = s := by
  intro f n definition
  have hrun := wp_registerStream hs hname recipe args mult
  unfold Action.wp at hrun
  cases hact : registerStream name definition s with
  | ok index t =>
    rw [hact] at hrun
    obtain ⟨hbindable, hindex, entries, hbecomes, hstate⟩ := hrun
    refine ⟨⟨fun _ => hbindable, fun _ => ⟨index, t, rfl⟩⟩, ?_, fun fault => ⟨?_, ?_⟩, ?_⟩
    · rintro _ _ ⟨⟩
      exact ⟨hindex, entries, hbecomes, hbecomes.length_eq, fun _ => hbecomes.get?_buffers, hstate⟩
    · rintro ⟨_, h⟩
      cases h
    · rintro ⟨k, hstops⟩
      exact absurd hstops (hbindable.not_stops fault k)
    · intro _ _ h
      cases h
  | error fault t =>
    rw [hact] at hrun
    obtain ⟨k, hleaves⟩ := hrun
    refine ⟨⟨?_, fun h => absurd hleaves.stops (h.not_stops fault k)⟩, ?_, fun fault' => ⟨?_, ?_⟩, ?_⟩
    · rintro ⟨_, _, h⟩
      cases h
    · intro _ _ h
      cases h
    · rintro ⟨_, ⟨⟩⟩
      exact ⟨k, hleaves.stops⟩
    · rintro ⟨k', hstops⟩
      obtain ⟨rfl, rfl⟩ := hleaves.stops.unique hstops
      exact ⟨t, rfl⟩
    · rintro r _ ⟨⟩
      exact hleaves.undone r rfl

/-- A mine, and recipes for a smelter and a press. -/
def workshop : List Call :=
  [.registerProduct "ore" "factory", .registerProduct "iron" "factory", .registerProduct "brick" "factory",
    .registerRecipe "mining" (.list []) (.list [.text "ore"]) (.int 1),
    .registerRecipe "smelting" (.list [.text "ore"]) (.list [.text "iron"]) (.int 1),
    .registerRecipe "pressing" (.list [.text "iron", .text "ore"]) (.list [.text "brick"]) (.int 1),
    .registerStream "mine" (.call (.text "mining") [] (.int 1))]

/-- A new factory with a workshop. -/
def workshopStart : Logged Factory := run workshop { state := empty {} }

theorem workshopStart_aligned : workshopStart.state.Aligned :=
  (wellFormed_run (s := { state := empty {} }) (wellFormed_empty {}) workshop).aligned

/-- A press with its own smelter, which has its own mine, takes three indices after that of the mine. -/
theorem registerStream_compiles_press : workshopStart.state.streams.get? "press" = none ∧
    ∃ t, registerStream "press" (.call (.text "pressing")
      [.call (.text "smelting") [.call (.text "mining") [] (.int 1)] (.int 1), .stream (.text "mine")] (.int 2))
      workshopStart = .ok 3 t := by
  have hnew : workshopStart.state.streams.get? "press" = none := by decide +kernel
  have hbindable : workshopStart.state.Bindable (.call (.text "pressing")
      [.call (.text "smelting") [.call (.text "mining") [] (.int 1)] (.int 1), .stream (.text "mine")] (.int 2)) := by
    have hmining : workshopStart.state.recipes.get? "mining" =
        some (Recipe.every 1 Int.one_pos [] [⟨⟨0, 0⟩, 1⟩]) := by decide +kernel
    have hsmelting : workshopStart.state.recipes.get? "smelting" =
        some (Recipe.every 1 Int.one_pos [⟨⟨0, 0⟩, 1⟩] [⟨⟨1, 0⟩, 1⟩]) := by decide +kernel
    have hpressing : workshopStart.state.recipes.get? "pressing" =
        some (Recipe.every 1 Int.one_pos [⟨⟨1, 0⟩, 1⟩, ⟨⟨0, 0⟩, 1⟩] [⟨⟨2, 0⟩, 1⟩]) := by decide +kernel
    have hmine : workshopStart.state.streams.get? "mine" = some 0 := by decide +kernel
    have hdug : workshopStart.state.Bindable (.call (.text "mining") [] (.int 1)) := .call hmining (by decide) rfl nofun
    have hsmelted := Bindable.call hsmelting (Int.le_refl 1) rfl (List.forall_mem_singleton.2 hdug)
    exact .call hpressing (by decide) rfl (List.forall_mem_cons.2 ⟨hsmelted, List.forall_mem_singleton.2 (.stream hmine)⟩)
  obtain ⟨hiff, hdone, _⟩ := registerStream_compiles workshopStart_aligned hnew (.text "pressing")
    [.call (.text "smelting") [.call (.text "mining") [] (.int 1)] (.int 1), .stream (.text "mine")] (.int 2)
  obtain ⟨index, t, hact⟩ := hiff.2 hbindable
  obtain rfl : index = 3 := (hdone index t hact).1.trans (by decide +kernel)
  exact ⟨hnew, t, hact⟩

/-! ## What is left behind -/

/-- A fault that is not a refusal leaves a stream, with its label, for every call that had passed its checks
before: nothing just if there was none. No name leads to these streams. -/
theorem registerStream_leaves {s t : Logged Factory} (hs : s.state.Aligned) {name : String} {recipe mult : Value}
    {args : List Value} {fault : Fault} (h : registerStream name (.call recipe args mult) s = .error fault t)
    (hforeign : ∀ r, fault ≠ .refused r) :
    ∃ k entries, Stops s.state name (.call recipe args mult) fault k ∧
      Becomes s.state s.state.arena.size ((Value.calls (.call recipe args mult)).take k) entries ∧
      t = extend s entries ∧
      (t.state.arena = s.state.arena ∧ t.state.labels = s.state.labels ∧ t.state.streams = s.state.streams ↔ k = 0) := by
  have hname : s.state.streams.get? name = none := by
    by_contra htaken
    have hduplicate := wp_registerStream_of_taken (s := s) htaken (.call recipe args mult)
    unfold Action.wp at hduplicate
    rw [h] at hduplicate
    exact hforeign _ hduplicate.1
  have hrun := wp_registerStream hs hname recipe args mult
  unfold Action.wp at hrun
  rw [h] at hrun
  obtain ⟨k, hstops, _, hleft⟩ := hrun
  obtain ⟨entries, hbecomes, rfl⟩ := hleft hforeign
  refine ⟨k, entries, hstops, hbecomes, rfl, ?_, ?_⟩
  · rintro ⟨_, hlabels, _⟩
    have hentries := List.map_eq_nil_iff.1 (List.append_right_eq_self.1 hlabels)
    have hlength := hbecomes.length_eq
    rw [hentries, List.length_nil, List.length_take, Nat.min_eq_left hstops.le_length] at hlength
    exact hlength.symm
  · rintro rfl
    obtain rfl : entries = [] := List.eq_nil_of_length_eq_zero hbecomes.length_eq
    rw [extend_nil]
    exact ⟨rfl, rfl, rfl⟩

/-- The second argument has a name that nothing is looked up by. -/
def nameless : Value :=
  .call (.text "pressing") [.call (.text "mining") [] (.int 1), .stream (.list [])] (.int 1)

/-- By then the first argument has its stream, and what the name raises is no refusal. -/
theorem registerStream_nameless : ∃ fault t, registerStream "press" nameless workshopStart = .error fault t ∧
    fault.kind? = none ∧ t.state.labels = ["mine", "mining#1"] :=
  Action.wp.exists_error (by decide +kernel)

theorem ne_refused_of_kind? {fault : Fault} (h : fault.kind? = none) (r : Refusal) : fault ≠ .refused r := by
  rintro rfl
  cases h

/-- What stays there is what the one call before the name has become. -/
theorem registerStream_leaves_mine : ∃ fault t, registerStream "press" nameless workshopStart = .error fault t ∧
    (∀ r, fault ≠ .refused r) ∧
    ∃ k entries, Stops workshopStart.state "press" nameless fault k ∧
      Becomes workshopStart.state workshopStart.state.arena.size (nameless.calls.take k) entries ∧
      t = extend workshopStart entries ∧ k ≠ 0 := by
  obtain ⟨fault, t, hact, hkind, hlabels⟩ := registerStream_nameless
  have hforeign := ne_refused_of_kind? hkind
  obtain ⟨k, entries, hstops, hbecomes, hextend, hnothing⟩ := registerStream_leaves workshopStart_aligned hact hforeign
  refine ⟨fault, t, hact, hforeign, k, entries, hstops, hbecomes, hextend, fun hk => ?_⟩
  have hsame := (hnothing.2 hk).2.1
  rw [hlabels] at hsame
  exact absurd hsame (by decide +kernel)

/-- A registration that fails, other than by a refusal, need not leave the factory as it was. -/
theorem registerStream_leaves_label : ∃ fault t, registerStream "press" nameless workshopStart = .error fault t ∧
    (∀ r, fault ≠ .refused r) ∧ t.state.labels ≠ workshopStart.state.labels := by
  obtain ⟨fault, t, hact, hkind, hlabels⟩ := registerStream_nameless
  exact ⟨fault, t, hact, ne_refused_of_kind? hkind, by rw [hlabels]; decide +kernel⟩

end Factory

end Conveyor
