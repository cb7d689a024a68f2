-- SUMMARY: A reader of directed graphs in DOT, and drawings read back statement by statement from their text.
import Conveyor.Proofs.Dot

/-!
# Reading drawings

The reader knows the part of the language that drawings are written in: settings, nodes and edges, each with one
list of attributes. A drawing whose identifiers all close is read back as its statements, in order and nothing
else.
-/

namespace Conveyor.Dot

/-! ## Reader -/

/-- A statement as it is read. -/
inductive Clause
  | setting (key value : Ident)
  | node (name : Ident) (attributes : List (Ident × Ident))
  | edge (tail head : Ident) (attributes : List (Ident × Ident))
deriving DecidableEq, Repr

mutual
/-- The statements up to the brace that closes the graph. -/
def readClauses : List Token → Option (List Clause)
  | [.mark '\x7d'] => some []
  | .ident key :: .mark '=' :: .ident value :: ts => (readClauses ts).map (.setting key value :: ·)
  | .ident name :: .mark '[' :: ts => readAttributes (.node name) [] ts
  | .ident tail :: .arrow :: .ident head :: .mark '[' :: ts => readAttributes (.edge tail head) [] ts
  | _ => none

/-- The rest of a statement's attributes, and the statements after it. -/
def readAttributes (clause : List (Ident × Ident) → Clause) (read : List (Ident × Ident)) :
    List Token → Option (List Clause)
  | .mark ']' :: ts => (readClauses ts).map (clause read :: ·)
  | .ident key :: .mark '=' :: .ident value :: ts => readAttributes clause (read ++ [(key, value)]) ts
  | _ => none
end

/-- The statements of a directed graph. -/
def readGraph : List Token → Option (List Clause)
  | .keyword "digraph" :: .mark '\x7b' :: ts => readClauses ts
  | _ => none

def read? (r : Escaping) (s : String) : Option (List Clause) := (lex? r s).bind readGraph

/-! ## What is to be read -/

structure Attribute.Reads (r : Escaping) (a : Attribute) (pair : Ident × Ident) : Prop where
  name : Dot.Reads r a.name pair.1
  value : Dot.Reads r a.value pair.2

/-- All identifiers of the statement close, and they are read as those of the clause. -/
inductive Statement.Reads (r : Escaping) : Statement → Clause → Prop
  | setting {entry : Attribute} {key value : Ident} (h : entry.Reads r (key, value)) :
      Reads r (.setting entry) (.setting key value)
  | node {name : String} {attributes : List Attribute} {id : Ident} {pairs : List (Ident × Ident)}
      (hname : Dot.Reads r name id) (hattributes : List.Forall₂ (Attribute.Reads r) attributes pairs) :
      Reads r (.node name attributes) (.node id pairs)
  | edge {tail head : String} {attributes : List Attribute} {tailId headId : Ident} {pairs : List (Ident × Ident)}
      (htail : Dot.Reads r tail tailId) (hhead : Dot.Reads r head headId)
      (hattributes : List.Forall₂ (Attribute.Reads r) attributes pairs) :
      Reads r (.edge tail head attributes) (.edge tailId headId pairs)

def pairTokens (pair : Ident × Ident) : List Token := [.ident pair.1, .mark '=', .ident pair.2]

def attributesTokens (pairs : List (Ident × Ident)) : List Token :=
  .mark '[' :: (pairs.flatMap pairTokens ++ [.mark ']'])

def Clause.tokens : Clause → List Token
  | .setting key value => pairTokens (key, value)
  | .node name attributes => .ident name :: attributesTokens attributes
  | .edge tail head attributes => .ident tail :: .arrow :: .ident head :: attributesTokens attributes

def graphTokens (clauses : List Clause) : List Token :=
  .keyword "digraph" :: .mark '\x7b' :: (clauses.flatMap Clause.tokens ++ [.mark '\x7d'])

variable {r : Escaping} {c : Char} {rest : List Char} {id : Ident} {ts : List Token}
variable {a : Attribute} {attributes : List Attribute} {pair : Ident × Ident} {pairs : List (Ident × Ident)}
variable {st : Statement} {statements : List Statement} {clause : Clause} {clauses : List Clause} {d : Drawing}

/-! ## From text to tokens -/

theorem Reads.lexFrom {s : String} (h : Reads r s id) (hc : ¬ isWordChar c) :
    lexFrom r .between ((identifier s).toList ++ c :: rest) = (lexFrom r .between (c :: rest)).map (.ident id :: ·) :=
  h.ident ▸ lexFrom_identifier h.closes hc

theorem lexFrom_attribute (h : a.Reads r pair) (hc : ¬ isWordChar c) :
    lexFrom r .between (a.text.toList ++ c :: rest) = (lexFrom r .between (c :: rest)).map (pairTokens pair ++ ·) := by
  have htext : a.text.toList ++ c :: rest =
      (identifier a.name).toList ++ '=' :: ((identifier a.value).toList ++ c :: rest) := by
    simp [Attribute.text]
  rw [htext, h.name.lexFrom (by decide), lexFrom_mark rfl (by decide) (by decide), h.value.lexFrom hc,
    Option.map_map, Option.map_map]
  rfl

theorem lexFrom_joined (h : List.Forall₂ (Attribute.Reads r) attributes pairs) (hc : ¬ isWordChar c) :
    lexFrom r .between ([' '].intercalate (attributes.map (·.text.toList)) ++ c :: rest) =
      (lexFrom r .between (c :: rest)).map (pairs.flatMap pairTokens ++ ·) := by
  induction h with
  | nil => exact Option.map_id'.symm
  | @cons a pair attributes pairs ha hattributes ih =>
    cases attributes with
    | nil =>
      cases hattributes
      simpa using lexFrom_attribute ha hc
    | cons b attributes =>
      have htext : [' '].intercalate ((a :: b :: attributes).map (·.text.toList)) ++ c :: rest =
          a.text.toList ++ ' ' :: ([' '].intercalate ((b :: attributes).map (·.text.toList)) ++ c :: rest) := by
        simp [List.intercalate]
      rw [htext, lexFrom_attribute ha (by decide), lexFrom_break rfl (by decide), ih, Option.map_map]
      rfl

theorem lexFrom_attributesText (h : List.Forall₂ (Attribute.Reads r) attributes pairs) :
    lexFrom r .between ((attributesText attributes).toList ++ rest) =
      (lexFrom r .between rest).map (attributesTokens pairs ++ ·) := by
  have htext : (attributesText attributes).toList ++ rest =
      '[' :: ([' '].intercalate (attributes.map (·.text.toList)) ++ ']' :: rest) := by
    simp [attributesText, String.toList_intercalate, Function.comp_def]
  rw [htext, lexFrom_mark rfl (by decide) (by decide), lexFrom_joined h (by decide),
    lexFrom_mark rfl (by decide) (by decide), Option.map_map, Option.map_map]
  congr 1
  funext us
  simp [attributesTokens]

theorem lexFrom_statement (h : st.Reads r clause) :
    lexFrom r .between (st.text.toList ++ '\n' :: rest) = (lexFrom r .between rest).map (clause.tokens ++ ·) := by
  cases h with
  | setting h =>
    rw [Statement.text, lexFrom_attribute h (by decide), lexFrom_break rfl (by decide)]
    rfl
  | @node name attributes id pairs hname hattributes =>
    have htext : (Statement.node name attributes).text.toList ++ '\n' :: rest =
        (identifier name).toList ++ ' ' :: ((attributesText attributes).toList ++ '\n' :: rest) := by
      simp [Statement.text]
    rw [htext, hname.lexFrom (by decide), lexFrom_break rfl (by decide), lexFrom_attributesText hattributes,
      lexFrom_break rfl (by decide), Option.map_map]
    rfl
  | @edge tail head attributes tailId headId pairs htail hhead hattributes =>
    have htext : (Statement.edge tail head attributes).text.toList ++ '\n' :: rest =
        (identifier tail).toList ++ ' ' :: '-' :: '>' :: ' ' ::
          ((identifier head).toList ++ ' ' :: ((attributesText attributes).toList ++ '\n' :: rest)) := by
      simp [Statement.text]
    rw [htext, htail.lexFrom (by decide), lexFrom_break rfl (by decide), lexFrom_arrow, lexFrom_break rfl (by decide),
      hhead.lexFrom (by decide), lexFrom_break rfl (by decide), lexFrom_attributesText hattributes,
      lexFrom_break rfl (by decide), Option.map_map, Option.map_map, Option.map_map]
    rfl

theorem lexFrom_lines (h : List.Forall₂ (Statement.Reads r) statements clauses) :
    lexFrom r .between (statements.flatMap (fun st => '\t' :: st.text.toList ++ ['\n']) ++ rest) =
      (lexFrom r .between rest).map (clauses.flatMap Clause.tokens ++ ·) := by
  induction h with
  | nil => exact Option.map_id'.symm
  | cons hst _ ih =>
    rw [List.flatMap_cons, List.append_assoc, List.append_assoc, List.singleton_append, List.cons_append,
      lexFrom_break rfl (by decide), lexFrom_statement hst, ih, Option.map_map]
    congr 1
    funext us
    simp

theorem lexFrom_header :
    lexFrom r .between ("digraph \x7b\n".toList ++ rest) =
      (lexFrom r .between rest).map (.keyword "digraph" :: .mark '\x7b' :: ·) := by
  have htext : "digraph \x7b\n".toList ++ rest = "digraph".toList ++ ' ' :: '\x7b' :: '\n' :: rest := rfl
  have hword : lexFrom r .between ("digraph".toList ++ ' ' :: '\x7b' :: '\n' :: rest) =
      lexFrom r (.word "digraph".toList) (' ' :: '\x7b' :: '\n' :: rest) := lexFrom_bare (by decide)
  rw [htext, hword, lexFrom_word_end (t := .keyword "digraph") (by decide) (by decide), lexFrom_break rfl (by decide),
    lexFrom_mark rfl (by decide) (by decide), lexFrom_break rfl (by decide), Option.map_map]
  rfl

theorem toList_text (d : Drawing) : d.text.toList = "digraph \x7b\n".toList ++
    (d.statements.flatMap (fun st => '\t' :: st.text.toList ++ ['\n']) ++ "\x7d\n".toList) := by
  simp [Drawing.text, String.toList_join, List.flatMap_map]

theorem lex?_text (h : List.Forall₂ (Statement.Reads r) d.statements clauses) :
    lex? r d.text = some (graphTokens clauses) := by
  rw [lex?, toList_text, lexFrom_header, lexFrom_lines h]
  rfl

/-- The last label of a drawing takes all that follows for a part of it, if it takes the quote that was to close
it. -/
theorem lex?_text_of_isOpen {tail head key label : String} {tailId headId keyId : Ident}
    (hd : d.statements = statements ++ [.edge tail head [⟨key, label⟩, a]])
    (h : List.Forall₂ (Statement.Reads r) statements clauses) (htail : Reads r tail tailId)
    (hhead : Reads r head headId) (hkey : Reads r key keyId) (hlabel : r.isOpen label.toList)
    (ha : '"' ∉ a.text.toList) : lex? r d.text = none := by
  have hstatement : d.text.toList = "digraph \x7b\n".toList ++
      (statements.flatMap (fun st => '\t' :: st.text.toList ++ ['\n']) ++
        '\t' :: ((identifier tail).toList ++ ' ' :: '-' :: '>' :: ' ' :: ((identifier head).toList ++ ' ' :: '[' ::
          ((identifier key).toList ++ '=' :: ((identifier label).toList ++
            ' ' :: (a.text.toList ++ "]\n\x7d\n".toList)))))) := by
    rw [toList_text, hd]
    simp [Statement.text, attributesText, Attribute.text]
  have hrest : '"' ∉ ' ' :: (a.text.toList ++ "]\n\x7d\n".toList) := by
    simp [ha]
  rw [lex?, hstatement, lexFrom_header, lexFrom_lines h, lexFrom_break rfl (by decide), htail.lexFrom (by decide),
    lexFrom_break rfl (by decide), lexFrom_arrow, lexFrom_break rfl (by decide), hhead.lexFrom (by decide),
    lexFrom_break rfl (by decide), lexFrom_mark rfl (by decide) (by decide), hkey.lexFrom (by decide),
    lexFrom_mark rfl (by decide) (by decide), lexFrom_identifier_of_isOpen hlabel hrest]
  rfl

/-! ## From tokens to statements -/

theorem readAttributes_append {make : List (Ident × Ident) → Clause} {read : List (Ident × Ident)} :
    readAttributes make read (pairs.flatMap pairTokens ++ .mark ']' :: ts) =
      (readClauses ts).map (make (read ++ pairs) :: ·) := by
  induction pairs generalizing read with
  | nil => rw [List.append_nil, List.flatMap_nil, List.nil_append, readAttributes]
  | cons pair pairs ih =>
    rw [List.flatMap_cons, List.append_assoc, List.append_cons read]
    exact ih

theorem readClauses_append : readClauses (clause.tokens ++ ts) = (readClauses ts).map (clause :: ·) := by
  have hattributes (make : List (Ident × Ident) → Clause) (pairs : List (Ident × Ident)) :
      readAttributes make [] ((pairs.flatMap pairTokens ++ [.mark ']']) ++ ts) =
        (readClauses ts).map (make pairs :: ·) := by
    rw [List.append_assoc, List.singleton_append, readAttributes_append, List.nil_append]
  cases clause with
  | setting key value => rfl
  | node name attributes => exact hattributes (.node name) attributes
  | edge tail head attributes => exact hattributes (.edge tail head) attributes

theorem readGraph_graphTokens (clauses : List Clause) : readGraph (graphTokens clauses) = some clauses := by
  change readClauses (clauses.flatMap Clause.tokens ++ [.mark '\x7d']) = some clauses
  induction clauses with
  | nil => rfl
  | cons clause clauses ih => rw [List.flatMap_cons, List.append_assoc, readClauses_append, ih, Option.map_some]

/-- A drawing whose identifiers all close is read back from its text. -/
theorem read?_text (h : List.Forall₂ (Statement.Reads r) d.statements clauses) : read? r d.text = some clauses := by
  rw [read?, lex?_text h]
  exact readGraph_graphTokens clauses

end Conveyor.Dot
