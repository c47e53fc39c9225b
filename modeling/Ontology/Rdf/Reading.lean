import Ontology.Rdf.Collected
import Ontology.Rdf.Token

/-!
# Reading graph documents

A reader walks over the tokens of a document and collects triples.  Tokens are taken one at a time,
since a declaration changes what the IRIs behind it stand for.

## Main definitions

* `Progress`, `Reader` — what has been read, and readers of parts of a document.
* `peek`, `next`, `accept`, `expect` — the next token.
* `iriOf`, `literal`, `plainTerm` — the terms of tokens.
* `Reader.triples?` — the triples of a document.
-/

namespace Ontology.Rdf

/-- What has been read of a document and what is left of it. -/
structure Progress where
  dialect : Dialect
  left : List Char
  base : Option String := none
  /-- The spaces of names, the latest first. -/
  spaces : List (String × String) := []
  collected : Collected := {}

/-- A reader of a part of a document. -/
abbrev Reader := StateT Progress Option

namespace Reader

/-- The document has no such part here. -/
def missing {α : Type} : Reader α := fun _ => none

/-! ### Tokens -/

/-- The next token and what follows it, unless the document ends. -/
def lookahead : Reader (Option (Token × List Char)) := do
  let p ← get
  let left := skipBlanks (p.dialect ≠ .lines) p.left false
  if left.isEmpty then return none
  else return some (← Token.take? p.dialect p.base left)

/-- The next token, unless the document ends. -/
def peek : Reader (Option Token) := do
  return (← lookahead).map Prod.fst

/-- Passes the next token. -/
def next : Reader Token := do
  let some (t, left) ← lookahead | missing
  modify fun p => { p with left }
  return t

/-- Tells whether a mark follows, and passes it. -/
def accept (mark : String) : Reader Bool := do
  if (← peek) = some (.mark mark) then
    let _ ← next
    return true
  else return false

/-- A mark that has to follow. -/
def expect (mark : String) : Reader Unit := do
  if !(← accept mark) then missing

/-! ### Triples -/

/-- A new blank node. -/
def newNode : Reader Resource :=
  modifyGet fun p => (p.collected.newNode.1, { p with collected := p.collected.newNode.2 })

/-- Adds a triple. -/
def emit (subject : Resource) (predicate : String) (object : Term) : Reader Unit :=
  modify fun p => { p with collected := p.collected.add subject predicate object }

/-- The triples of a document, in its order. -/
def triples? (reader : Reader Unit) (dialect : Dialect) (text : String) : Option (List Triple) := do
  let (_, p) ← reader.run { dialect, left := text.toList }
  return p.collected.triples

/-! ### Terms -/

/-- The IRI that a token stands for, if it stands for one. -/
def iriOf (t : Token) : Reader (Option String) := do
  match t with
  | .iri iri => return some iri
  | .name start localPart =>
    let some space := (← get).spaces.lookup start | missing
    let iri := space ++ localPart
    if isIri iri then return some iri else missing
  | _ => return none

/-- A text with its datatype or language, which follow it. -/
def literal (value : String) : Reader Literal := do
  match ← peek with
  | some (.tag tag) =>
    let _ ← next
    return .tagged value tag.toLower
  | some (.mark "^^") =>
    let _ ← next
    let some datatype ← iriOf (← next) | missing
    if datatype = rdf.langString then missing else return .typed value datatype
  | _ => return .plain value

/-- The term of a token that is no bracket. -/
def plainTerm (t : Token) : Reader Term := do
  match t with
  | .blank label => return .blank (.written label)
  | .text value => return .literal (← literal value)
  | .number value datatype => return .literal (.typed value datatype)
  | .word "true" => return .literal (.typed "true" xsd.boolean)
  | .word "false" => return .literal (.typed "false" xsd.boolean)
  | t =>
    let some iri ← iriOf t | missing
    return .iri iri

/-! ### Declarations -/

/-- A name for a space, behind the word that announces it. -/
def declareSpace : Reader Unit := do
  let .name start "" ← next | missing
  let .iri iri ← next | missing
  modify fun p => { p with spaces := (start, iri) :: p.spaces }

/-- A base, behind the word that announces it. -/
def declareBase : Reader Unit := do
  let .iri iri ← next | missing
  modify fun p => { p with base := some iri }

/-- Reads what a token declares, if it announces a declaration; tells whether it ends with a
point. -/
def declaration (t : Token) : Reader (Option Bool) := do
  match t with
  | .tag "prefix" => declareSpace; return some true
  | .tag "base" => declareBase; return some true
  | .word word =>
    if word.toUpper = "PREFIX" then declareSpace; return some false
    else if word.toUpper = "BASE" then declareBase; return some false
    else return none
  | _ => return none

end Reader

end Ontology.Rdf
