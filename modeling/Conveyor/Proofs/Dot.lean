-- SUMMARY: A lexer of the DOT language, and which identifiers it reads back whole from the text they are written as.
import Conveyor.Dot
import Conveyor.Proofs.Text

/-!
# Tokens of DOT

The lexer takes one character after the other: between tokens, inside a word, inside quotes, or inside the
brackets of an HTML string. An identifier comes back as one token, whatever follows it, unless its own end
undoes the mark that was to close it.
-/

namespace Conveyor.Dot

/-! ## Tokens -/

/-- An identifier as the lexer sees it: the characters of a word, those between the quotes, or HTML with its
brackets. -/
inductive Ident
  | bare (text : List Char)
  | quoted (text : List Char)
  | html (text : List Char)
deriving DecidableEq, Repr

inductive Token
  | ident (id : Ident)
  | keyword (word : String)
  | mark (c : Char)
  | arrow
deriving DecidableEq, Repr

/-- Which double quotes do not end a quoted string. -/
inductive Escaping
  /-- Those right after a backslash. -/
  | previous
  /-- Those right after a backslash that no backslash before it has taken. -/
  | pairs
deriving DecidableEq, Repr

/-- Does the character keep a double quote right after it from ending the string? `escaped` says whether it was
kept itself. -/
def Escaping.next : Escaping → Bool → Char → Bool
  | .previous, _, c => c = '\\'
  | .pairs, escaped, c => c = '\\' && !escaped

/-- Does the text keep a double quote right after it from ending the string? -/
def Escaping.isOpen (r : Escaping) (cs : List Char) : Bool := cs.foldl r.next false

/-! ## Lexer -/

def isKeyword (w : List Char) : Bool := keywords.contains (String.ofList (w.map Char.toLower))

def isWordChar (c : Char) : Bool := isLetter c || c.isDigit || c = '.'

def isBreak (c : Char) : Bool := c = ' ' || c = '\t' || c = '\n' || c = '\r'

def isMark (c : Char) : Bool := ['[', ']', '\x7b', '\x7d', '=', ';', ','].contains c

/-- The token of a finished word. -/
def wordToken (w : List Char) : Option Token :=
  if isKeyword w then some (.keyword (String.ofList (w.map Char.toLower)))
  else if isName w || isNumber w then some (.ident (.bare w))
  else none

/-- Where the lexer is; the text is what it has read of a token. -/
inductive Mode
  | between
  | dash
  | word (text : List Char)
  | quoted (text : List Char) (escaped : Bool)
  /-- `depth` is the number of open brackets besides the first one. -/
  | html (text : List Char) (depth : Nat)
deriving DecidableEq, Repr

/-- The first character of a token, or one between tokens. -/
def start (c : Char) : Option (List Token × Mode) :=
  if isWordChar c then some ([], .word [c])
  else if isBreak c then some ([], .between)
  else if isMark c then some ([.mark c], .between)
  else if c = '-' then some ([], .dash)
  else if c = '"' then some ([], .quoted [] false)
  else if c = '<' then some ([], .html [c] 0)
  else none

/-- One more character: the tokens it finishes, and where the lexer is after it. -/
def step (r : Escaping) : Mode → Char → Option (List Token × Mode)
  | .between, c => start c
  | .dash, c =>
    if isWordChar c then some ([], .word ['-', c])
    else if c = '>' then some ([.arrow], .between)
    else none
  | .word w, c =>
    if isWordChar c then some ([], .word (w ++ [c]))
    else (wordToken w).bind fun t => (start c).map fun (ts, m) => (t :: ts, m)
  | .quoted text escaped, c =>
    if c = '"' && !escaped then some ([.ident (.quoted text)], .between)
    else some ([], .quoted (text ++ [c]) (r.next escaped c))
  | .html text depth, '<' => some ([], .html (text ++ ['<']) (depth + 1))
  | .html text 0, '>' => some ([.ident (.html (text ++ ['>']))], .between)
  | .html text (depth + 1), '>' => some ([], .html (text ++ ['>']) depth)
  | .html text depth, c => some ([], .html (text ++ [c]) depth)

/-- What is left to finish at the end of the text; quotes and brackets must be closed by then. -/
def Mode.finish : Mode → Option (List Token)
  | .between => some []
  | .word w => (wordToken w).map ([·])
  | _ => none

def lexFrom (r : Escaping) : Mode → List Char → Option (List Token)
  | m, [] => m.finish
  | m, c :: cs => (step r m c).bind fun (ts, m) => (lexFrom r m cs).map (ts ++ ·)

/-- The tokens of a text. -/
def lex? (r : Escaping) (s : String) : Option (List Token) := lexFrom r .between s.toList

/-! ## Identifiers -/

/-- What the lexer is to see of an identifier. -/
def ident (s : String) : Ident :=
  let cs := s.toList
  if isHtml cs then .html (withoutFinalNewline cs)
  else if isPlain cs then .bare (withoutFinalNewline cs)
  else .quoted (escapeQuotes false cs)

/-- Does the last character close the open brackets, and none before it? -/
def nests : Nat → List Char → Bool
  | _, [] => false
  | depth, '<' :: cs => nests (depth + 1) cs
  | 0, '>' :: cs => cs.isEmpty
  | depth + 1, '>' :: cs => nests depth cs
  | depth, _ :: cs => nests depth cs

/-- Does the identifier end where its text does? -/
def closes (r : Escaping) (s : String) : Bool :=
  let cs := s.toList
  if isHtml cs then nests 0 (withoutFinalNewline cs).tail
  else if isPlain cs then !isKeyword (withoutFinalNewline cs)
  else !r.isOpen cs

variable {r : Escaping} {s : String} {c : Char} {cs w text rest : List Char} {depth : Nat} {m : Mode} {e escaped : Bool}

/-! ## One character -/

/-- A character that finishes no token. -/
theorem lexFrom_cons_of_step {n : Mode} (h : step r m c = some ([], n)) : lexFrom r m (c :: rest) = lexFrom r n rest := by
  rw [lexFrom, h]
  exact Option.map_id'

/-- A character that finishes a token. -/
theorem lexFrom_cons_of_finish {t : Token} {n : Mode} (h : step r m c = some ([t], n)) :
    lexFrom r m (c :: rest) = (lexFrom r n rest).map (t :: ·) := by
  rw [lexFrom, h]
  rfl

theorem lexFrom_break (hc : isBreak c) (hword : ¬ isWordChar c) :
    lexFrom r .between (c :: rest) = lexFrom r .between rest :=
  lexFrom_cons_of_step (by rw [step, start, if_neg hword, if_pos hc])

theorem lexFrom_mark (hc : isMark c) (hword : ¬ isWordChar c) (hbreak : ¬ isBreak c) :
    lexFrom r .between (c :: rest) = (lexFrom r .between rest).map (.mark c :: ·) :=
  lexFrom_cons_of_finish (by rw [step, start, if_neg hword, if_neg hbreak, if_pos hc])

theorem lexFrom_arrow : lexFrom r .between ('-' :: '>' :: rest) = (lexFrom r .between rest).map (.arrow :: ·) := by
  rw [lexFrom_cons_of_step (n := .dash) (by rfl), lexFrom_cons_of_finish (t := .arrow) (n := .between) (by rfl)]

/-! ## Quotes -/

theorem lexFrom_quoted (h : c = '"' → escaped) :
    lexFrom r (.quoted text escaped) (c :: rest) = lexFrom r (.quoted (text ++ [c]) (r.next escaped c)) rest := by
  refine lexFrom_cons_of_step ?_
  rw [step, if_neg]
  simpa using h

theorem lexFrom_endquote :
    lexFrom r (.quoted text false) ('"' :: rest) = (lexFrom r .between rest).map (.ident (.quoted text) :: ·) :=
  lexFrom_cons_of_finish rfl

theorem Escaping.next_eq_false (hc : c ≠ '\\') : r.next escaped c = false := by
  cases r <;> simp [next, hc]

/-- The writer counts backslashes in pairs; where it takes the next quote for escaped, so must the lexer. -/
def Escaping.Agrees : Escaping → Bool → Bool → Prop
  | .previous, e, escaped => e → escaped
  | .pairs, e, escaped => escaped = e

theorem Escaping.Agrees.eq_true (h : r.Agrees true escaped) : escaped = true := by
  cases r with
  | previous => exact h rfl
  | pairs => exact h

theorem Escaping.Agrees.slash (h : r.Agrees e escaped) : r.Agrees (!e) (r.next escaped '\\') := by
  cases r with
  | previous => exact fun _ => rfl
  | pairs => exact congrArg Bool.not h

theorem Escaping.agrees_false (r : Escaping) : r.Agrees false false := by
  cases r with
  | previous => exact id
  | pairs => rfl

/-- The quotes of a name never end the string it is written in. -/
theorem lexFrom_escapeQuotes (h : r.Agrees e escaped) :
    lexFrom r (.quoted text escaped) (escapeQuotes e cs ++ rest) =
      lexFrom r (.quoted (text ++ escapeQuotes e cs) (cs.foldl r.next escaped)) rest := by
  induction e, cs using escapeQuotes.induct generalizing escaped text with
  | case1 e => rw [escapeQuotes, List.nil_append, List.append_nil, List.foldl_nil]
  | case2 e cs ih =>
    have hslash : '\\' = '"' → escaped := fun hc => absurd hc (by decide)
    rw [escapeQuotes, List.cons_append, lexFrom_quoted hslash, ih h.slash, List.append_assoc, List.singleton_append,
      List.foldl_cons]
  | case3 cs ih =>
    -- a quote that has a backslash already
    have hfree : r.next escaped '"' = false := Escaping.next_eq_false (by decide)
    rw [escapeQuotes, if_pos rfl, List.cons_append, lexFrom_quoted fun _ => h.eq_true, hfree, ih r.agrees_false,
      List.append_assoc, List.singleton_append, List.foldl_cons, hfree]
  | case4 e cs he ih =>
    -- a quote that gets one, and the lexer must not take that backslash for a kept one
    obtain rfl := Bool.eq_false_iff.2 he
    have hslash : '\\' = '"' → escaped := fun hc => absurd hc (by decide)
    have hkept : r.next escaped '\\' = true := h.slash.eq_true
    have hfree (kept : Bool) : r.next kept '"' = false := Escaping.next_eq_false (by decide)
    rw [escapeQuotes, if_neg he, List.cons_append, List.cons_append, lexFrom_quoted hslash, lexFrom_quoted fun _ => hkept,
      hfree, ih r.agrees_false, List.foldl_cons, hfree, List.append_assoc, List.append_assoc]
    rfl
  | case5 e c cs hslash hquote ih =>
    have hfree : r.next escaped c = false := Escaping.next_eq_false hslash
    rw [escapeQuotes, List.cons_append, lexFrom_quoted (absurd · hquote), hfree, ih r.agrees_false, List.append_assoc,
      List.singleton_append, List.foldl_cons, hfree]
    · exact hslash
    · exact hquote

theorem lexFrom_written : lexFrom r .between ('"' :: escapeQuotes false cs ++ rest) =
    lexFrom r (.quoted (escapeQuotes false cs) (r.isOpen cs)) rest := by
  rw [List.cons_append, lexFrom_cons_of_step (n := .quoted [] false) rfl, lexFrom_escapeQuotes r.agrees_false]
  rfl

/-- Without another quote an open string does not end. -/
theorem lexFrom_quoted_eq_none (h : '"' ∉ rest) : lexFrom r (.quoted text escaped) rest = none := by
  induction rest generalizing text escaped with
  | nil => rfl
  | cons c rest ih =>
    obtain ⟨hc, hrest⟩ := not_or.1 (List.mem_cons.not.1 h)
    rw [lexFrom_quoted fun heq => absurd heq.symm hc, ih hrest]

/-! ## Brackets -/

theorem step_html (hopen : c ≠ '<') (hclose : c ≠ '>') :
    step r (.html text depth) c = some ([], .html (text ++ [c]) depth) := by
  rw [step]
  exacts [hopen, fun hc => absurd hc hclose, fun _ hc => absurd hc hclose]

theorem nests_cons (hopen : c ≠ '<') (hclose : c ≠ '>') : nests depth (c :: cs) = nests depth cs := by
  rw [nests]
  exacts [hopen, fun _ => hclose, fun _ _ => hclose]

theorem lexFrom_html (h : nests depth cs) :
    lexFrom r (.html text depth) (cs ++ rest) = (lexFrom r .between rest).map (.ident (.html (text ++ cs)) :: ·) := by
  induction cs generalizing depth text with
  | nil => cases h
  | cons c cs ih =>
    rw [List.append_cons text]
    cases Decidable.em (c = '<') with
    | inl hopen =>
      subst hopen
      exact (lexFrom_cons_of_step rfl).trans (ih h)
    | inr hopen =>
      cases Decidable.em (c = '>') with
      | inl hclose =>
        subst hclose
        cases depth with
        | zero =>
          obtain rfl := List.isEmpty_iff.1 h
          exact lexFrom_cons_of_finish (by rw [List.append_nil]; rfl)
        | succ depth => exact (lexFrom_cons_of_step rfl).trans (ih h)
      | inr hclose =>
        rw [nests_cons hopen hclose] at h
        exact (lexFrom_cons_of_step (step_html hopen hclose)).trans (ih h)

theorem lexFrom_html_breaks (h : rest.all isBreak) : lexFrom r (.html text depth) rest = none := by
  induction rest generalizing text with
  | nil => rfl
  | cons c rest ih =>
    obtain ⟨hc, hrest⟩ := (Bool.and_eq_true _ _).mp (List.all_cons ▸ h)
    have hopen : c ≠ '<' := by rintro rfl; cases hc
    have hclose : c ≠ '>' := by rintro rfl; cases hc
    rw [lexFrom_cons_of_step (step_html hopen hclose), ih hrest]

/-- Brackets that do not nest are closed too early, or not at all. -/
theorem lexFrom_html_ne (h : ¬ nests depth cs) (hrest : rest.all isBreak) :
    lexFrom r (.html text depth) (cs ++ rest) ≠ some [.ident (.html (text ++ cs))] := by
  induction cs generalizing depth text with
  | nil =>
    rw [List.nil_append, lexFrom_html_breaks hrest]
    exact nofun
  | cons c cs ih =>
    rw [List.append_cons text]
    have hgoon {depth' : Nat} (hstep : step r (.html text depth) c = some ([], .html (text ++ [c]) depth'))
        (h' : ¬ nests depth' cs) :
        lexFrom r (.html text depth) (c :: cs ++ rest) ≠ some [.ident (.html (text ++ [c] ++ cs))] :=
      (lexFrom_cons_of_step hstep).trans_ne (ih h')
    cases Decidable.em (c = '<') with
    | inl hopen =>
      subst hopen
      exact hgoon rfl h
    | inr hopen =>
      cases Decidable.em (c = '>') with
      | inl hclose =>
        subst hclose
        cases depth with
        | zero =>
          -- the token ends here, but the text goes on
          intro hread
          rw [List.cons_append, lexFrom_cons_of_finish (t := .ident (.html (text ++ ['>']))) (n := .between) rfl] at hread
          obtain ⟨us, _, htokens⟩ := Option.map_eq_some_iff.1 hread
          have htext : text ++ ['>'] = text ++ ['>'] ++ cs := by simpa using (List.cons.inj htokens).1
          exact h (List.isEmpty_iff.2 (List.self_eq_append_right.1 htext))
        | succ depth => exact hgoon rfl h
      | inr hclose =>
        rw [nests_cons hopen hclose] at h
        exact hgoon (step_html hopen hclose) h

/-! ## Words -/

theorem isWordChar_of_isLetter (h : isLetter c) : isWordChar c := by
  rw [isWordChar, h]
  rfl

theorem isWordChar_of_isDigit (h : c.isDigit) : isWordChar c := by
  rw [isWordChar, h, Bool.or_true]
  rfl

theorem isWordChar_of_isName (h : isName cs) : ∀ c ∈ cs, isWordChar c := by
  cases cs with
  | nil => cases h
  | cons c cs =>
    rw [isName, Bool.and_eq_true, List.all_eq_true] at h
    refine List.forall_mem_cons.2 ⟨isWordChar_of_isLetter h.1, fun d hd => ?_⟩
    obtain hd | hd := (Bool.or_eq_true _ _).mp (h.2 d hd)
    exacts [isWordChar_of_isLetter hd, isWordChar_of_isDigit hd]

theorem isWordChar_of_isUnsigned (h : isUnsigned cs) : cs ≠ [] ∧ ∀ c ∈ cs, isWordChar c := by
  have hwhole : ∀ c ∈ cs.takeWhile Char.isDigit, isWordChar c := fun c hc =>
    isWordChar_of_isDigit (List.mem_takeWhile_imp hc)
  rw [← List.takeWhile_append_dropWhile (p := Char.isDigit) (l := cs)]
  rw [isUnsigned] at h
  split at h
  next hrest =>
    rw [hrest, List.append_nil]
    exact ⟨by simpa using h, hwhole⟩
  next rest hrest =>
    have hdigits := List.all_eq_true.1 ((Bool.and_eq_true _ _).mp h).1
    rw [hrest]
    exact ⟨by simp, List.forall_mem_append.2 ⟨hwhole, List.forall_mem_cons.2 ⟨rfl, fun c hc =>
      isWordChar_of_isDigit (hdigits c hc)⟩⟩⟩
  next => cases h

/-- A number is unsigned but for a minus sign in front. -/
theorem exists_of_isNumber (h : isNumber cs) : (∃ ds, cs = '-' :: ds ∧ isUnsigned ds) ∨ isUnsigned cs := by
  unfold isNumber at h
  split at h
  next ds => exact .inl ⟨ds, rfl, h⟩
  next => exact .inr h

theorem bare_chars (h : isName cs ∨ isNumber cs) : ∀ c ∈ cs, isWordChar c ∨ c = '-' := by
  cases h with
  | inl h => exact fun c hc => .inl (isWordChar_of_isName h c hc)
  | inr h =>
    obtain ⟨ds, rfl, h⟩ | h := exists_of_isNumber h
    · exact List.forall_mem_cons.2 ⟨.inr rfl, fun c hc => .inl ((isWordChar_of_isUnsigned h).2 c hc)⟩
    · exact fun c hc => .inl ((isWordChar_of_isUnsigned h).2 c hc)

theorem lexFrom_word (h : ∀ c ∈ cs, isWordChar c) :
    lexFrom r (.word w) (cs ++ rest) = lexFrom r (.word (w ++ cs)) rest := by
  induction cs generalizing w with
  | nil => rw [List.nil_append, List.append_nil]
  | cons c cs ih =>
    obtain ⟨hc, hcs⟩ := List.forall_mem_cons.1 h
    have hstep : step r (.word w) c = some ([], .word (w ++ [c])) := if_pos hc
    rw [List.cons_append, lexFrom_cons_of_step hstep, ih hcs, List.append_assoc, List.singleton_append]

/-- The words that are identifiers are read from their first character to their last. -/
theorem lexFrom_bare (h : isName w ∨ isNumber w) : lexFrom r .between (w ++ rest) = lexFrom r (.word w) rest := by
  have hword {m : Mode} {w cs : List Char} (hm : ∀ c, isWordChar c → step r m c = some ([], .word (w ++ [c])))
      (hne : cs ≠ []) (hcs : ∀ c ∈ cs, isWordChar c) :
      lexFrom r m (cs ++ rest) = lexFrom r (.word (w ++ cs)) rest := by
    obtain ⟨c, cs, rfl⟩ := List.exists_cons_of_ne_nil hne
    obtain ⟨hc, hcs⟩ := List.forall_mem_cons.1 hcs
    rw [List.cons_append, lexFrom_cons_of_step (hm c hc), lexFrom_word hcs, List.append_assoc, List.singleton_append]
  have hstart : ∀ c, isWordChar c → step r .between c = some ([], .word ([] ++ [c])) := fun c hc => if_pos hc
  have hdash : ∀ c, isWordChar c → step r .dash c = some ([], .word (['-'] ++ [c])) := fun c hc => if_pos hc
  cases h with
  | inl h => exact hword hstart (by rintro rfl; cases h) (isWordChar_of_isName h)
  | inr h =>
    obtain ⟨cs, rfl, h⟩ | h := exists_of_isNumber h
    · obtain ⟨hne, hcs⟩ := isWordChar_of_isUnsigned h
      rw [List.cons_append, lexFrom_cons_of_step (n := .dash) rfl, hword hdash hne hcs]
      rfl
    · exact hword hstart (isWordChar_of_isUnsigned h).1 (isWordChar_of_isUnsigned h).2

theorem wordToken_eq_bare (hw : isName w ∨ isNumber w) (hkeyword : isKeyword w = false) :
    wordToken w = some (.ident (.bare w)) := by
  rw [wordToken, hkeyword, if_neg Bool.false_ne_true, if_pos ((Bool.or_eq_true _ _).mpr hw)]

/-- Any other character ends a word. -/
theorem lexFrom_word_end {t : Token} (ht : wordToken w = some t) (hc : ¬ isWordChar c) :
    lexFrom r (.word w) (c :: rest) = (lexFrom r .between (c :: rest)).map (t :: ·) := by
  rw [lexFrom, lexFrom, step, step, if_neg hc, ht]
  cases start c with
  | none => rfl
  | some out =>
    change (lexFrom r out.2 rest).map (t :: out.1 ++ ·) = ((lexFrom r out.2 rest).map (out.1 ++ ·)).map _
    rw [Option.map_map]
    rfl

/-! ## Identifiers -/

theorem eq_withoutFinalNewline (cs : List Char) :
    cs = withoutFinalNewline cs ∨ cs = withoutFinalNewline cs ++ ['\n'] := by
  rw [withoutFinalNewline]
  split
  next h => exact .inr (List.dropLast_append_getLast? _ h).symm
  next => exact .inl rfl

/-- The bracket that HTML starts with. -/
theorem eq_cons_of_isHtml (hhtml : isHtml cs) : withoutFinalNewline cs = '<' :: (withoutFinalNewline cs).tail := by
  have hhead : cs.head? = some '<' := of_decide_eq_true ((Bool.and_eq_true _ _).mp hhtml).1
  have hends := eq_withoutFinalNewline cs
  cases hbody : withoutFinalNewline cs with
  | nil =>
    rw [hbody] at hends
    obtain rfl | rfl := hends <;> cases hhead
  | cons d ds =>
    have hd : cs.head? = some d := by
      rw [hbody] at hends
      obtain hcs | hcs := hends <;> rw [hcs] <;> rfl
    rw [Option.some.inj (hd.symm.trans hhead), List.tail_cons]

theorem lexFrom_htmlBody (hhtml : isHtml cs) :
    lexFrom r .between (withoutFinalNewline cs ++ rest) =
      lexFrom r (.html ['<'] 0) ((withoutFinalNewline cs).tail ++ rest) := by
  conv_lhs => rw [eq_cons_of_isHtml hhtml, List.cons_append, lexFrom_cons_of_step (n := .html ['<'] 0) rfl]

/-- What is written bare may end with a line feed, which is no part of the token. -/
theorem lexFrom_of_body {t : Token} (hc : ¬ isWordChar c)
    (h : ∀ d rest, ¬ isWordChar d → lexFrom r .between (withoutFinalNewline cs ++ d :: rest) =
      (lexFrom r .between (d :: rest)).map (t :: ·)) :
    lexFrom r .between (cs ++ c :: rest) = (lexFrom r .between (c :: rest)).map (t :: ·) := by
  obtain hsame | hlf := eq_withoutFinalNewline cs
  · conv_lhs => rw [hsame]
    exact h c rest hc
  · have hline := h '\n' (c :: rest) (by decide)
    rw [lexFrom_break rfl (by decide)] at hline
    conv_lhs => rw [hlf, List.append_assoc, List.singleton_append]
    exact hline

theorem lexFrom_of_word {t : Token} (hw : isName (withoutFinalNewline cs) ∨ isNumber (withoutFinalNewline cs))
    (ht : wordToken (withoutFinalNewline cs) = some t) (hc : ¬ isWordChar c) :
    lexFrom r .between (cs ++ c :: rest) = (lexFrom r .between (c :: rest)).map (t :: ·) :=
  lexFrom_of_body hc fun _ _ hd => (lexFrom_bare hw).trans (lexFrom_word_end ht hd)

/-- Which of the three ways an identifier is written in, what the lexer is to make of it, and when it closes. -/
theorem identifier_cases (r : Escaping) (s : String) :
    let cs := s.toList
    let body := withoutFinalNewline cs
    (isHtml cs ∧ identifier s = s ∧ ident s = .html body ∧ closes r s = nests 0 body.tail) ∨
      ((isName body ∨ isNumber body) ∧ identifier s = s ∧ ident s = .bare body ∧ closes r s = !isKeyword body) ∨
      ((identifier s).toList = '"' :: escapeQuotes false cs ++ ['"'] ∧ ident s = .quoted (escapeQuotes false cs) ∧
        closes r s = !r.isOpen cs) := by
  unfold identifier ident closes
  dsimp only
  cases hhtml : isHtml s.toList with
  | true => exact .inl ⟨rfl, rfl, rfl, rfl⟩
  | false =>
    cases hplain : isPlain s.toList with
    | true => exact .inr (.inl ⟨(Bool.or_eq_true _ _).mp ((Bool.and_eq_true _ _).mp hplain).1, rfl, rfl, rfl⟩)
    | false => exact .inr (.inr ⟨String.toList_ofList, rfl, rfl⟩)

/-- An identifier that closes is one token, whatever follows it. -/
theorem lexFrom_identifier (h : closes r s) (hc : ¬ isWordChar c) :
    lexFrom r .between ((identifier s).toList ++ c :: rest) =
      (lexFrom r .between (c :: rest)).map (.ident (ident s) :: ·) := by
  obtain ⟨hhtml, htext, hident, hcloses⟩ | ⟨hw, htext, hident, hcloses⟩ | ⟨htext, hident, hcloses⟩ :=
    identifier_cases r s
  · rw [hcloses] at h
    rw [htext, hident]
    refine lexFrom_of_body hc fun _ _ _ => ?_
    rw [lexFrom_htmlBody hhtml, lexFrom_html h, List.singleton_append, ← eq_cons_of_isHtml hhtml]
  · have hkeyword : isKeyword (withoutFinalNewline s.toList) = false := by simpa [hcloses] using h
    rw [htext, hident]
    exact lexFrom_of_word hw (wordToken_eq_bare hw hkeyword) hc
  · have hclosed : r.isOpen s.toList = false := by simpa [hcloses] using h
    rw [htext, hident, List.append_assoc, lexFrom_written, hclosed]
    exact lexFrom_endquote

/-- The identifiers that close are those that are read as one token. -/
theorem closes_iff : closes r s ↔ lexFrom r .between ((identifier s).toList ++ [' ']) = some [.ident (ident s)] := by
  refine ⟨fun h => lexFrom_identifier h (by decide), fun hread => by_contra fun h => ?_⟩
  obtain ⟨hhtml, htext, hident, hcloses⟩ | ⟨hw, htext, hident, hcloses⟩ | ⟨htext, hident, hcloses⟩ :=
    identifier_cases r s
  · rw [hcloses] at h
    rw [htext, hident] at hread
    have hne {rest : List Char} (hrest : rest.all isBreak) : lexFrom r .between (withoutFinalNewline s.toList ++ rest) ≠
        some [.ident (.html (withoutFinalNewline s.toList))] := by
      rw [lexFrom_htmlBody hhtml]
      conv_rhs => rw [eq_cons_of_isHtml hhtml]
      exact lexFrom_html_ne h hrest
    obtain hsame | hline := eq_withoutFinalNewline s.toList
    · conv_lhs at hread => rw [hsame]
      exact absurd hread (hne rfl)
    · conv_lhs at hread => rw [hline, List.append_assoc]
      exact absurd hread (hne rfl)
  · have hkeyword : isKeyword (withoutFinalNewline s.toList) = true := by simpa [hcloses] using h
    have htoken : wordToken (withoutFinalNewline s.toList) = _ := if_pos hkeyword
    rw [htext, hident, lexFrom_of_word hw htoken (by decide)] at hread
    cases hread
  · have hopen : r.isOpen s.toList = true := by simpa [hcloses] using h
    rw [htext, List.append_assoc, lexFrom_written, hopen] at hread
    cases hread

/-! ## Names and labels -/

/-- The identifier that a plain word is read as. -/
def Ident.plain (s : String) : Ident := .bare s.toList

/-- The identifier that a text between quotes is read as. -/
def Ident.label (s : String) : Ident := .quoted (escapeQuotes false s.toList)

/-- The text closes as an identifier, and is read as this one. -/
structure Reads (r : Escaping) (s : String) (id : Ident) : Prop where
  closes : closes r s
  ident : ident s = id

theorem not_isKeyword_of_underscore (h : '_' ∈ cs) : isKeyword cs = false := by
  have hnone : ∀ word ∈ keywords, '_' ∉ word.toList := by decide
  refine Bool.eq_false_iff.2 fun hkeyword => hnone _ (List.contains_iff_mem.1 hkeyword) ?_
  rw [String.toList_ofList]
  exact List.mem_map.2 ⟨'_', h, by decide⟩

theorem reads_plain (hname : isName s.toList) (hkeyword : isKeyword s.toList = false) : Reads r s (.plain s) := by
  have hbody : withoutFinalNewline s.toList = s.toList := by
    refine (eq_withoutFinalNewline s.toList).elim Eq.symm fun hline => ?_
    have hmem : '\n' ∈ s.toList := hline ▸ List.mem_append_right _ List.mem_cons_self
    exact absurd (isWordChar_of_isName hname '\n' hmem) (by decide)
  have hhtml : isHtml s.toList = false := by
    rw [isHtml, Bool.and_eq_false_iff]
    refine .inl (decide_eq_false fun hhead => ?_)
    exact absurd (isWordChar_of_isName hname '<' (List.mem_of_mem_head? hhead)) (by decide)
  have hplain : isPlain s.toList = true := by
    rw [isKeyword] at hkeyword
    rw [isPlain, hbody, hname, hkeyword]
    rfl
  refine ⟨?_, ?_⟩
  · simp [Dot.closes, hhtml, hplain, hbody, hkeyword]
  · simp [Dot.ident, Ident.plain, hhtml, hplain, hbody]

theorem withoutFinalNewline_concat (hline : c ≠ '\n') : withoutFinalNewline (cs ++ [c]) = cs ++ [c] := by
  simp [withoutFinalNewline, hline]

theorem isHtml_eq_false_of_last (hc : c ≠ '>') (hline : c ≠ '\n') : isHtml (cs ++ [c]) = false := by
  simp [isHtml, withoutFinalNewline_concat hline, endsHtml, hc]

theorem isPlain_eq_false (h : c ∈ withoutFinalNewline cs) (hword : ¬ isWordChar c) (hdash : c ≠ '-') :
    isPlain cs = false := by
  rw [isPlain, Bool.and_eq_false_iff]
  refine .inl (Bool.eq_false_iff.2 fun hbare => ?_)
  exact (bare_chars ((Bool.or_eq_true _ _).mp hbare) c h).elim hword hdash

theorem isOpen_eq_false_of_last (hc : c ≠ '\\') : r.isOpen (cs ++ [c]) = false := by
  rw [Escaping.isOpen, List.foldl_append]
  exact Escaping.next_eq_false hc

/-- Only a backslash takes the quote behind a text. -/
theorem exists_concat_of_isOpen (h : r.isOpen cs) : ∃ ds, cs = ds ++ ['\\'] := by
  obtain rfl | ⟨ds, c, rfl⟩ := List.eq_nil_or_concat cs
  · cases h
  · rw [List.concat_eq_append] at h ⊢
    cases Decidable.em (c = '\\') with
    | inl hc => exact ⟨ds, hc ▸ rfl⟩
    | inr hc =>
      rw [isOpen_eq_false_of_last hc] at h
      cases h

/-- A text with a blank in it is put between quotes, and closes if its end is no mark of the language. -/
theorem reads_label (cs : List Char) (c : Char) (hs : s.toList = cs ++ [c]) (hblank : ' ' ∈ cs) (hgt : c ≠ '>')
    (hline : c ≠ '\n') (hslash : c ≠ '\\') : Reads r s (.label s) := by
  have hhtml : isHtml s.toList = false := hs ▸ isHtml_eq_false_of_last hgt hline
  have hbody : ' ' ∈ withoutFinalNewline s.toList := by
    rw [hs, withoutFinalNewline_concat hline]
    exact List.mem_append_left _ hblank
  have hplain : isPlain s.toList = false := isPlain_eq_false hbody (by decide) (by decide)
  have hopen : r.isOpen s.toList = false := hs ▸ isOpen_eq_false_of_last hslash
  refine ⟨?_, ?_⟩
  · simp [Dot.closes, hhtml, hplain, hopen]
  · simp [Dot.ident, Ident.label, hhtml, hplain]

/-- A text that takes the quote behind it is put between quotes, and all that follows is taken for a part of it. -/
theorem lexFrom_identifier_of_isOpen (h : r.isOpen s.toList) (hrest : '"' ∉ rest) :
    lexFrom r .between ((identifier s).toList ++ rest) = none := by
  obtain ⟨cs, hs⟩ := exists_concat_of_isOpen h
  have hhtml : isHtml s.toList = false := hs ▸ isHtml_eq_false_of_last (by decide) (by decide)
  have hbody : '\\' ∈ withoutFinalNewline s.toList := by
    rw [hs, withoutFinalNewline_concat (by decide)]
    exact List.mem_append_right _ List.mem_cons_self
  have hplain : isPlain s.toList = false := isPlain_eq_false hbody (by decide) (by decide)
  have htext : (identifier s).toList = '"' :: escapeQuotes false s.toList ++ ['"'] := by
    simp [identifier, hhtml, hplain]
  rw [htext, List.append_assoc, lexFrom_written, h, List.singleton_append, lexFrom_quoted fun _ => rfl]
  exact lexFrom_quoted_eq_none hrest

end Conveyor.Dot
