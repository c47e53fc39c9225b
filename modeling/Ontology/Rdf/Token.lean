import Ontology.Rdf.Lexical

/-!
# Tokens of graph documents

The line formats of graphs share their tokens; a dialect tells how many of them a format knows.
IRIs are taken in full, so that the tokens depend on the base in force where they stand.

## Main definitions

* `Dialect` — the kinds of line formats.
* `Token` — the tokens, and `Token.take?`, the one that a text starts with.
* `skipBlanks` — a text without the blanks and comments at its start.
-/

namespace Ontology.Rdf

/-- How documents abbreviate triples. -/
inductive Dialect where
  /-- Not at all: every line holds one statement. -/
  | lines
  /-- By names, lists and nodes without labels. -/
  | terse
  /-- Also by paths and formulas. -/
  | formulas
  deriving DecidableEq, Repr

/-- A token. -/
inductive Token where
  /-- An absolute IRI. -/
  | iri (text : String)
  /-- A name with the prefix that stands for its space. -/
  | name (start : String) (localPart : String)
  | variable (name : String)
  | blank (label : String)
  | text (value : String)
  | number (text : String) (datatype : String)
  /-- The word behind an at sign. -/
  | tag (text : String)
  | mark (text : String)
  | word (text : String)
  | lineEnd
  deriving DecidableEq, Repr

/-- The character ends a line. -/
def isLineEnd (c : Char) : Bool :=
  c = '\n' || c = '\r'

/-- Leaves out blanks and comments; line ends count as blanks only if `acrossLines` holds. -/
def skipBlanks (acrossLines : Bool) (cs : List Char) (inComment : Bool) : List Char :=
  match cs with
  | [] => []
  | c :: rest =>
    if isLineEnd c then if acrossLines then skipBlanks acrossLines rest false else cs
    else if inComment then skipBlanks acrossLines rest true
    else if c = ' ' || c = '\t' then skipBlanks acrossLines rest false
    else if c = '#' then skipBlanks acrossLines rest true
    else cs

namespace Token

/-- An IRI between brackets, seen from the base if there is one. -/
def takeIri? (base : Option String) (cs : List Char) : Option (Token × List Char) := do
  let (reference, rest) ← takeReference? cs
  match base with
  | some base => return (.iri (← resolveIri? base reference), rest)
  | none => if isIri reference then some (.iri reference, rest) else none

/-- A word, or a name if it has a colon. -/
def takeWord? (cs : List Char) : Option (Token × List Char) := do
  let (run, rest) := takeDotted isNameChar cs
  if !run.head?.all isNameLetter then none
  else
    match rest with
    | ':' :: rest =>
      let (localPart, rest) ← takeLocal? [] 0 rest
      return (.name (String.ofList run) (String.ofList localPart), rest)
    | rest =>
      if run.isEmpty || (rest.dropWhile (· = '.')).head? = some ':' then none
      else some (.word (String.ofList run), rest)

/-- The tag behind an at sign. -/
def takeTag? (cs : List Char) : Option (Token × List Char) :=
  let (run, rest) := cs.span fun c => c.isAlphanum || c = '-'
  let tag := String.ofList run
  if isLanguageTag tag then some (.tag tag, rest) else none

/-- A mark with the longer ones that it may start. -/
def takeMark? (d : Dialect) (cs : List Char) : Option (Token × List Char) :=
  let double := match d with
    | .lines | .terse => ["^^"]
    | .formulas => ["^^", "=>", "<=", "<-"]
  let single := ["(", ")", "[", "]", "\x7b", "\x7d", ",", ";", ".", "^", "!", "="]
  ((double ++ single).find? fun mark => mark.toList.isPrefixOf cs).map fun mark =>
    (.mark mark, cs.drop mark.length)

/-- The token that a text without blanks at its start begins with.  Where an IRI and an arrow may
stand, it is an IRI if that can be read. -/
def take? (d : Dialect) (base : Option String) (cs : List Char) : Option (Token × List Char) :=
  match cs with
  | [] => none
  | c :: rest =>
    if isLineEnd c then
      some (.lineEnd, if ['\r', '\n'].isPrefixOf cs then cs.drop 2 else rest)
    else if c = '<' then (takeIri? base rest).or (takeMark? d cs)
    else if c = '"' || (c = '\'' && d ≠ .lines) then
      (takeQuoted? (d ≠ .lines) cs).map fun (value, rest) => (.text value, rest)
    else if c = '@' then takeTag? rest
    else if c = '_' && rest.head? = some ':' then
      (takeLabel? rest.tail).map fun (label, rest) => (.blank (String.ofList label), rest)
    else if c = '?' then do
      let (found, rest) ← takeLocal? [] 0 rest
      if found.isEmpty then none else some (.variable (String.ofList found), rest)
    else if c.isDigit || c = '+' || c = '-' || (c = '.' && rest.head?.any Char.isDigit) then
      (takeNumber? cs).map fun ((value, datatype), rest) => (.number value datatype, rest)
    else (takeMark? d cs).or (takeWord? cs)

end Token

end Ontology.Rdf
