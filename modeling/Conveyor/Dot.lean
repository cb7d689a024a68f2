-- SUMMARY: Graph drawings in the DOT language: statements, attributes, and the quoting of identifiers.

/-!
# DOT

A drawing is a list of statements with attributes. An identifier is written as it is when it is a
plain name or number, or HTML between angle brackets; anything else goes between double quotes, with
a backslash before every double quote that has none yet.
-/

namespace Conveyor.Dot

/-! ## Identifiers -/

/-- The text without a line feed at its end. -/
def withoutFinalNewline (cs : List Char) : List Char :=
  if cs.getLast? = some '\n' then cs.dropLast else cs

def endsHtml (cs : List Char) : Bool := 2 ≤ cs.length && cs.getLast? = some '>'

/-- HTML between angle brackets. -/
def isHtml (cs : List Char) : Bool :=
  cs.head? = some '<' && (endsHtml cs || endsHtml (withoutFinalNewline cs))

def isLetter (c : Char) : Bool := c.isAlpha || c = '_'

/-- A letter followed by letters and digits. -/
def isName : List Char → Bool
  | [] => false
  | c :: cs => isLetter c && cs.all fun c => isLetter c || c.isDigit

/-- Digits that start with a point, or digits with a point among or behind them. -/
def isUnsigned (cs : List Char) : Bool :=
  let whole := cs.takeWhile Char.isDigit
  match cs.dropWhile Char.isDigit with
  | [] => !whole.isEmpty
  | '.' :: rest => rest.all Char.isDigit && !(whole.isEmpty && rest.isEmpty)
  | _ => false

def isNumber : List Char → Bool
  | '-' :: cs => isUnsigned cs
  | cs => isUnsigned cs

/-- The words that the language keeps for itself, in any case. -/
def keywords : List String := ["node", "edge", "graph", "digraph", "subgraph", "strict"]

/-- A name or a number that needs no quotes. -/
def isPlain (cs : List Char) : Bool :=
  let body := withoutFinalNewline cs
  (isName body || isNumber body) && !keywords.contains (String.ofList (cs.map Char.toLower))

/-- The text with a backslash before every double quote that has none yet; `escaped` says whether a
backslash is open. -/
def escapeQuotes (escaped : Bool) : List Char → List Char
  | [] => []
  | '\\' :: cs => '\\' :: escapeQuotes (!escaped) cs
  | '"' :: cs => if escaped then '"' :: escapeQuotes false cs else '\\' :: '"' :: escapeQuotes false cs
  | c :: cs => c :: escapeQuotes false cs

/-- An identifier as it is written in a statement. -/
def identifier (s : String) : String :=
  let cs := s.toList
  if isHtml cs || isPlain cs then s
  else String.ofList ('"' :: escapeQuotes false cs ++ ['"'])

/-! ## Statements -/

/-- A name and its value, both not yet quoted. -/
structure Attribute where
  name : String
  value : String
deriving DecidableEq, Repr

inductive Statement
  | setting (entry : Attribute)
  | node (name : String) (attributes : List Attribute)
  | edge (tail head : String) (attributes : List Attribute)
deriving DecidableEq, Repr

/-- The statements of a directed graph. -/
structure Drawing where
  statements : List Statement
deriving DecidableEq, Repr

def Attribute.text (a : Attribute) : String := identifier a.name ++ "=" ++ identifier a.value

/-- Attributes between square brackets. -/
def attributesText (attributes : List Attribute) : String :=
  "[" ++ " ".intercalate (attributes.map Attribute.text) ++ "]"

def Statement.text : Statement → String
  | .setting entry => entry.text
  | .node name attributes => identifier name ++ " " ++ attributesText attributes
  | .edge tail head attributes =>
    identifier tail ++ " -> " ++ identifier head ++ " " ++ attributesText attributes

/-- A statement a line, between the braces of a directed graph. -/
def Drawing.text (d : Drawing) : String :=
  "digraph \x7b\n" ++ String.join (d.statements.map fun s => "\t" ++ s.text ++ "\n") ++ "\x7d\n"

end Conveyor.Dot
