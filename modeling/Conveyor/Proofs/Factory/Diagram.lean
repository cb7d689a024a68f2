-- SUMMARY: The supply graph of a factory is read back from its text, whatever the names, if labels without a rate close.
import Conveyor.Factory.Diagram
import Conveyor.Proofs.Dot.Reader
import Conveyor.Proofs.Factory.Sustained
import Conveyor.Proofs.Result

/-!
# Supply diagrams read back

Names are user text, with quotes and backslashes as they come. In the label of a node, and of an edge with a rate,
other text stands behind the name, and the name can neither end the label nor keep it open. The label of an edge
without a rate is the bare name: there the name has to close.
-/

namespace Conveyor.Factory

open Dot (Clause Escaping Reads)

/-! ## What is to be read -/

/-- The node of a stream: its name, multiplier and efficiency between quotes. -/
inductive ReadsNode (f : Factory) : Stream × Nat → Clause → Prop
  | intro {s : Stream} {i : Nat} {efficiency : Float} {name mult : String}
      (hefficiency : f.arena.efficiency i = .ok efficiency) (hname : f.streamName i = .ok name)
      (hmult : written s.mult = .ok mult) :
      ReadsNode f (s, i) (.node (.plain (nodeName i))
        [(.plain "label", .label (name ++ " x" ++ mult ++ "\n" ++ Decimal.percent efficiency)),
          (.plain "fillcolor", .plain (f.nodeColor i s)), (.plain "shape", .plain "box"),
          (.plain "style", .plain "filled")])

/-- The edge of an input slot of a stream, with the product and its rate between quotes, or with the product
alone. -/
inductive ReadsEdge (f : Factory) : Nat × Slot → Clause → Prop
  | rated {i : Nat} {slot : Slot} {rate : Rate} {name text : String}
      (hrate : f.arena.rateOf slot.supplier slot.product = .ok (some rate))
      (hname : f.productName slot.product = .ok name) (htext : rate.text = .ok text) :
      ReadsEdge f (i, slot) (.edge (.plain (nodeName slot.supplier)) (.plain (nodeName i))
        [(.plain "label", .label (name ++ "\n" ++ text)), (.plain "color", .plain "black")])
  | unrated {i : Nat} {slot : Slot} {name : String}
      (hrate : f.arena.rateOf slot.supplier slot.product = .ok none) (hname : f.productName slot.product = .ok name) :
      ReadsEdge f (i, slot) (.edge (.plain (nodeName slot.supplier)) (.plain (nodeName i))
        [(.plain "label", Dot.ident name), (.plain "color", .plain "red")])

/-- All input slots in order, each with the stream it belongs to. -/
def inputSlots (f : Factory) : List (Nat × Slot) :=
  f.arena.streams.zipIdx.flatMap fun (s, i) => s.inputs.map (i, ·)

/-- The name of the product of an input slot, if its supplier does not make the product. -/
def unratedName? (f : Factory) (e : Nat × Slot) : Option String :=
  match f.arena.rateOf e.2.supplier e.2.product, f.productName e.2.product with
  | .ok none, .ok name => some name
  | _, _ => none

variable {f : Factory} {r : Escaping} {i : Nat} {s : Stream} {slot : Slot} {st : Dot.Statement}
variable {d : Dot.Drawing}

/-! ## Identifiers -/

/-- The words that drawings are written with. -/
def words : List String :=
  ["rankdir", "LR", "label", "fillcolor", "lightgreen", "lightblue", "white", "shape", "box", "style", "filled", "color",
    "black", "red"]

theorem reads_word (r : Escaping) (w : String) (hw : w ∈ words) : Reads r w (.plain w) := by
  have hwords : ∀ w ∈ words, Dot.isName w.toList ∧ Dot.isKeyword w.toList = false := by decide
  exact Dot.reads_plain (hwords w hw).1 (hwords w hw).2

theorem reads_nodeColor (r : Escaping) (f : Factory) (i : Nat) (s : Stream) :
    Reads r (f.nodeColor i s) (.plain (f.nodeColor i s)) := by
  refine reads_word r _ ?_
  unfold nodeColor
  split
  · decide
  · split <;> decide

theorem toList_nodeName (i : Nat) : (nodeName i).toList = 'S' :: ("tream_".toList ++ Nat.toDigits 10 i) := by
  simp [nodeName]

/-- No two streams share a node. -/
theorem nodeName_injective : Function.Injective nodeName := by
  intro i j h
  have hdigits : Nat.toDigits 10 i = Nat.toDigits 10 j := by
    have hlists := congrArg String.toList h
    rw [toList_nodeName, toList_nodeName] at hlists
    exact List.append_cancel_left (List.cons.inj hlists).2
  calc
    i = Nat.ofDigitChars 10 (Nat.toDigits 10 i) 0 := (Nat.ofDigitChars_toDigits (by decide) (by decide)).symm
    _ = Nat.ofDigitChars 10 (Nat.toDigits 10 j) 0 := by rw [hdigits]
    _ = j := Nat.ofDigitChars_toDigits (by decide) (by decide)

theorem reads_nodeName (r : Escaping) (i : Nat) : Reads r (nodeName i) (.plain (nodeName i)) := by
  have htext := toList_nodeName i
  have hdigits : ∀ c ∈ Nat.toDigits 10 i, c.isDigit := fun _ => Text.Numeral.isDigit_of_mem_toDigits
  refine Dot.reads_plain ?_ (Dot.not_isKeyword_of_underscore ?_)
  · rw [htext, Dot.isName, List.all_append, Bool.and_eq_true, Bool.and_eq_true, List.all_eq_true (l := Nat.toDigits 10 i)]
    exact ⟨rfl, rfl, fun c hc => by rw [hdigits c hc, Bool.or_true]⟩
  · rw [htext]
    exact List.mem_cons_of_mem _ (List.mem_append_left _ (by decide))

theorem reads_nodeLabel (r : Escaping) (name mult : String) (x : Float) :
    Reads r (name ++ " x" ++ mult ++ "\n" ++ Decimal.percent x)
      (.label (name ++ " x" ++ mult ++ "\n" ++ Decimal.percent x)) := by
  refine Dot.reads_label (name ++ " x" ++ mult ++ "\n" ++ Decimal.fixed 0 (x * 100.0)).toList '%' ?_ ?_ (by decide)
    (by decide) (by decide)
  · simp [Decimal.percent]
  · simp

theorem reads_rateLabel {rate : Rate} {text : String} (h : rate.text = .ok text) (name : String) :
    Reads r (name ++ "\n" ++ text) (.label (name ++ "\n" ++ text)) := by
  obtain ⟨amount, -, h⟩ := Result.bind_eq_ok.1 h
  obtain ⟨ticks, -, h⟩ := Result.bind_eq_ok.1 h
  obtain rfl := Result.pure_eq_ok.1 h
  refine Dot.reads_label (name ++ "\n" ++ (Decimal.figure amount ++ " / " ++ Decimal.figure ticks ++ " tick")).toList 's'
    ?_ ?_ (by decide) (by decide) (by decide)
  · simp
  · simp

/-! ## Statements -/

theorem exists_reads_nodeStatement (r : Escaping) (h : f.nodeStatement i s = .ok st) :
    ∃ clause, st.Reads r clause ∧ f.ReadsNode (s, i) clause := by
  obtain ⟨efficiency, hefficiency, h⟩ := Result.bind_eq_ok.1 h
  obtain ⟨name, hname, h⟩ := Result.bind_eq_ok.1 h
  obtain ⟨mult, hmult, h⟩ := Result.bind_eq_ok.1 h
  obtain rfl := Result.pure_eq_ok.1 h
  refine ⟨_, .node (reads_nodeName r i) ?_, .intro hefficiency hname hmult⟩
  exact .cons ⟨reads_word r "label" (by decide), reads_nodeLabel r name mult efficiency⟩ <|
    .cons ⟨reads_word r "fillcolor" (by decide), reads_nodeColor r f i s⟩ <|
    .cons ⟨reads_word r "shape" (by decide), reads_word r "box" (by decide)⟩ <|
    .cons ⟨reads_word r "style" (by decide), reads_word r "filled" (by decide)⟩ .nil

theorem edgeStatement_of_unratedName? {name : String} (h : f.unratedName? (i, slot) = some name) :
    f.edgeStatement i slot =
      .ok (.edge (nodeName slot.supplier) (nodeName i) [⟨"label", name⟩, ⟨"color", "red"⟩]) := by
  unfold unratedName? at h
  split at h
  next hrate hname =>
    obtain rfl := Option.some.inj h
    exact Result.bind_eq_ok.2 ⟨none, hrate, Result.bind_eq_ok.2 ⟨_, hname, rfl⟩⟩
  next => cases h

theorem exists_reads_edgeStatement (h : f.edgeStatement i slot = .ok st)
    (hunrated : ∀ name ∈ f.unratedName? (i, slot), Dot.closes r name) :
    ∃ clause, st.Reads r clause ∧ f.ReadsEdge (i, slot) clause := by
  obtain ⟨rate, hrate, h⟩ := Result.bind_eq_ok.1 h
  obtain ⟨name, hname, h⟩ := Result.bind_eq_ok.1 h
  have hlabel := reads_word r "label" (by decide)
  have hcolor := reads_word r "color" (by decide)
  have htail := reads_nodeName r slot.supplier
  have hhead := reads_nodeName r i
  cases rate with
  | some rate =>
    obtain ⟨text, htext, h⟩ := Result.bind_eq_ok.1 h
    obtain rfl := Result.pure_eq_ok.1 h
    refine ⟨_, .edge htail hhead ?_, .rated hrate hname htext⟩
    exact .cons ⟨hlabel, reads_rateLabel htext name⟩ (.cons ⟨hcolor, reads_word r "black" (by decide)⟩ .nil)
  | none =>
    obtain rfl := Result.pure_eq_ok.1 h
    refine ⟨_, .edge htail hhead ?_, .unrated hrate hname⟩
    have hcloses := hunrated name (by rw [unratedName?, hrate, hname]; rfl)
    exact .cons ⟨hlabel, hcloses, rfl⟩ (.cons ⟨hcolor, reads_word r "red" (by decide)⟩ .nil)

/-! ## Drawings -/

/-- A drawing is its direction, the nodes and the edges. -/
theorem exists_of_diagram (h : f.diagram = .ok d) : ∃ nodes edges,
    d.statements = .setting ⟨"rankdir", "LR"⟩ :: (nodes ++ edges) ∧
      f.arena.streams.zipIdx.mapM (fun e => f.nodeStatement e.2 e.1) = .ok nodes ∧
      f.inputSlots.mapM (fun e => f.edgeStatement e.1 e.2) = .ok edges := by
  obtain ⟨nodes, hnodes, h⟩ := Result.bind_eq_ok.1 h
  obtain ⟨edges, hedges, h⟩ := Result.bind_eq_ok.1 h
  obtain rfl := Result.pure_eq_ok.1 h
  refine ⟨nodes, edges.flatten, rfl, hnodes, Result.mapM_flatMap (Eq.trans ?_ hedges)⟩
  simp only [List.mapM_map]
  rfl

theorem exists_reads_nodes {nodes : List Dot.Statement} (r : Escaping)
    (h : f.arena.streams.zipIdx.mapM (fun e => f.nodeStatement e.2 e.1) = .ok nodes) :
    ∃ clauses, List.Forall₂ (Dot.Statement.Reads r) nodes clauses ∧
      List.Forall₂ f.ReadsNode f.arena.streams.zipIdx clauses :=
  Result.exists_forall₂_of_mapM h fun _ _ _ hst => exists_reads_nodeStatement r hst

theorem exists_reads_edges {slots : List (Nat × Slot)} {edges : List Dot.Statement}
    (h : slots.mapM (fun e => f.edgeStatement e.1 e.2) = .ok edges)
    (hunrated : ∀ e ∈ slots, ∀ name ∈ f.unratedName? e, Dot.closes r name) :
    ∃ clauses, List.Forall₂ (Dot.Statement.Reads r) edges clauses ∧ List.Forall₂ f.ReadsEdge slots clauses :=
  Result.exists_forall₂_of_mapM h fun _ he _ hst => exists_reads_edgeStatement hst (hunrated _ he)

theorem reads_direction (r : Escaping) :
    (Dot.Statement.setting ⟨"rankdir", "LR"⟩).Reads r (.setting (.plain "rankdir") (.plain "LR")) :=
  .setting ⟨reads_word r "rankdir" (by decide), reads_word r "LR" (by decide)⟩

/-- The supply graph is read back: one node per stream and one edge per input slot, in order and nothing else,
each with its own label and attributes. The names may be any text, but a product that its supplier does not
make needs a name that closes. -/
theorem diagram_reads_back (h : f.diagram = .ok d) (r : Escaping)
    (hunrated : ∀ e ∈ f.inputSlots, ∀ name ∈ f.unratedName? e, Dot.closes r name) :
    ∃ nodes edges, Dot.read? r d.text = some (.setting (.plain "rankdir") (.plain "LR") :: (nodes ++ edges)) ∧
      List.Forall₂ f.ReadsNode f.arena.streams.zipIdx nodes ∧ List.Forall₂ f.ReadsEdge f.inputSlots edges := by
  obtain ⟨nodes, edges, hd, hnodes, hedges⟩ := exists_of_diagram h
  obtain ⟨nodeClauses, hreadsNodes, hnodes⟩ := exists_reads_nodes r hnodes
  obtain ⟨edgeClauses, hreadsEdges, hedges⟩ := exists_reads_edges hedges hunrated
  refine ⟨nodeClauses, edgeClauses, Dot.read?_text ?_, hnodes, hedges⟩
  rw [hd]
  exact .cons (reads_direction r) (List.rel_append hreadsNodes hreadsEdges)

/-- A mine of ore, and a mill that takes the ore and the other product from it. -/
def mill (ore other : String) : List Call :=
  [.registerProduct ore "factory", .registerProduct other "factory", .registerProduct "flour" "factory",
    .registerRecipe "mining" (.list []) (.list [.text ore]) (.int 1),
    .registerRecipe "milling" (.list [.text ore, .text other]) (.list [.text "flour"]) (.int 1),
    .registerStream "mine" (.call (.text "mining") [] (.int 1)),
    .registerStream "mill" (.call (.text "milling") [.stream (.text "mine"), .stream (.text "mine")] (.int 1))]

def quotedMill : Factory := (built (mill "<\"ore\\\" x\\" "gold \"au\"")).state

/-- Quotes and backslashes do no harm in front of a rate, and quotes none anywhere. -/
theorem diagram_reads_back_quotedMill : ∃ d nodes edges, quotedMill.diagram = .ok d ∧
    Dot.read? .previous d.text = some (.setting (.plain "rankdir") (.plain "LR") :: (nodes ++ edges)) ∧
      nodes.length = 2 ∧ edges.length = 2 := by
  obtain ⟨d, hd⟩ := Result.exists_of_isOk (show quotedMill.diagram.isOk = true by decide +kernel)
  obtain ⟨nodes, edges, hread, hnodes, hedges⟩ := diagram_reads_back hd .previous (by decide +kernel)
  exact ⟨d, nodes, edges, hd, hread, hnodes.length_eq.symm.trans (by decide +kernel),
    hedges.length_eq.symm.trans (by decide +kernel)⟩

/-- The bare name of the last label takes the quote that was to close the label, and with it the rest of the
text: nothing is read. -/
theorem diagram_unreadable (h : f.diagram = .ok d) {slots : List (Nat × Slot)} {e : Nat × Slot} {name : String}
    (hslots : f.inputSlots = slots ++ [e]) (hname : f.unratedName? e = some name) (hopen : r.isOpen name.toList)
    (hothers : ∀ e ∈ slots, ∀ name ∈ f.unratedName? e, Dot.closes r name) : Dot.lex? r d.text = none := by
  obtain ⟨nodes, edges, hd, hnodes, hedges⟩ := exists_of_diagram h
  rw [hslots, List.mapM_append] at hedges
  obtain ⟨others, hedgesOthers, hedges⟩ := Result.bind_eq_ok.1 hedges
  obtain ⟨last, hlast, hedges⟩ := Result.bind_eq_ok.1 hedges
  obtain rfl := Result.pure_eq_ok.1 hedges
  obtain ⟨nodeClauses, hreadsNodes, -⟩ := exists_reads_nodes r hnodes
  obtain ⟨otherClauses, hreadsOthers, -⟩ := exists_reads_edges hedgesOthers hothers
  obtain ⟨st, _, hst, hnil, rfl⟩ := List.forall₂_cons_left_iff.1 (Result.mapM_eq_ok.1 hlast)
  obtain rfl := List.forall₂_nil_left_iff.1 hnil
  obtain rfl := Except.ok.inj ((edgeStatement_of_unratedName? hname).symm.trans hst)
  have hstatements : d.statements = .setting ⟨"rankdir", "LR"⟩ :: (nodes ++ others) ++
      [.edge (nodeName e.2.supplier) (nodeName e.1) [⟨"label", name⟩, ⟨"color", "red"⟩]] := by
    rw [hd, List.cons_append, List.append_assoc]
  have hreads := List.Forall₂.cons (reads_direction r) (List.rel_append hreadsNodes hreadsOthers)
  exact Dot.lex?_text_of_isOpen hstatements hreads (reads_nodeName r _) (reads_nodeName r _)
    (reads_word r "label" (by decide)) hopen (by decide)

def brokenMill : Factory := (built (mill "ore" "gold\\")).state

/-- A backslash at the end of a name is enough, where the supplier does not make the product. -/
theorem diagram_unreadable_brokenMill : ∃ d, brokenMill.diagram = .ok d ∧ ∀ r, Dot.lex? r d.text = none := by
  have hslots : brokenMill.inputSlots = [(1, ⟨⟨0, 0⟩, 0⟩)] ++ [(1, ⟨⟨1, 0⟩, 0⟩)] := by decide +kernel
  have hname : brokenMill.unratedName? (1, ⟨⟨1, 0⟩, 0⟩) = some "gold\\" := by decide +kernel
  have hrated : brokenMill.unratedName? (1, ⟨⟨0, 0⟩, 0⟩) = none := by decide +kernel
  obtain ⟨d, hd⟩ := Result.exists_of_isOk (show brokenMill.diagram.isOk = true by decide +kernel)
  refine ⟨d, hd, fun r => diagram_unreadable hd hslots hname ?_ ?_⟩
  · cases r <;> decide
  · rintro e he name hmem
    obtain rfl := List.mem_singleton.1 he
    rw [hrated] at hmem
    cases hmem

end Conveyor.Factory
