import Ontology.Rdf.Vocabulary
import Ontology.Text.Quoted

/-!
# Graphs

## Main definitions

* `Resource`, `Literal`, `Term` — what triples are made of.
* `Triple`, `Graph` — a graph holds every triple once.
* `Term.text` — the text of a term, as a line of triples writes it.
-/

namespace Ontology.Rdf

/-- What tells blank nodes apart. -/
inductive BlankLabel where
  /-- A label written in a document. -/
  | written (text : String)
  /-- A node that was made up, by the way to the place it was made for, innermost step first. -/
  | made (path : List Nat)
  deriving DecidableEq, Repr, Inhabited

/-- A node that can be a subject. -/
inductive Resource where
  | iri (text : String)
  | blank (label : BlankLabel)
  deriving DecidableEq, Repr, Inhabited

/-- A text with a datatype or a language. -/
inductive Literal where
  | typed (value datatype : String)
  /-- The tag is in lower case. -/
  | tagged (value language : String)
  deriving DecidableEq, Repr, Inhabited

/-- A node of a graph. -/
inductive Term where
  | resource (r : Resource)
  | literal (l : Literal)
  deriving DecidableEq, Repr, Inhabited

/-- The node of an IRI. -/
def Term.iri (text : String) : Term := .resource (.iri text)

/-- A blank node. -/
def Term.blank (label : BlankLabel) : Term := .resource (.blank label)

/-- A text without datatype or language. -/
def Literal.plain (value : String) : Literal := .typed value xsd.string

/-- The text of a literal alone. -/
def Literal.value : Literal → String
  | .typed value _ | .tagged value _ => value

/-- An edge of a graph. -/
structure Triple where
  subject : Resource
  /-- The IRI of the predicate. -/
  predicate : String
  object : Term
  deriving DecidableEq, Repr, Inhabited

/-- A set of triples, each listed once. -/
structure Graph where
  triples : List Triple := []
  deriving DecidableEq, Repr, Inhabited

namespace Graph

/-- Adds a triple. -/
def insert (g : Graph) (t : Triple) : Graph :=
  if t ∈ g.triples then g else ⟨t :: g.triples⟩

/-- The graph of a list of triples. -/
def ofList (ts : List Triple) : Graph :=
  ts.foldl insert {}

end Graph

/-! ### Text -/

/-- How one character of a literal is written. -/
def escapeChar (c : Char) : String :=
  match c with
  | '\x08' => "\\b"
  | '\t' => "\\t"
  | '\n' => "\\n"
  | '\x0c' => "\\f"
  | '\r' => "\\r"
  | '"' => "\\\""
  | '\\' => "\\\\"
  | c =>
    if c.toNat < 0x20 ∨ c.toNat = 0x7f ∨ c.toNat = 0xfffe ∨ c.toNat = 0xffff then
      "\\u" ++ (Text.hexDigits 4 c.toNat).toUpper
    else c.toString

/-- A text between double quotes. -/
def quoted (text : String) : String :=
  "\"" ++ String.join (text.toList.map escapeChar) ++ "\""

/-- An IRI between angle brackets. -/
def bracketed (iri : String) : String :=
  "<" ++ iri ++ ">"

/-- The text of a literal with its datatype or language. -/
def Literal.text : Literal → String
  | .typed value datatype =>
    if datatype = xsd.string then quoted value else quoted value ++ "^^" ++ bracketed datatype
  | .tagged value language => quoted value ++ "@" ++ language

/-- The label of a blank node behind its colon. -/
def BlankLabel.text : BlankLabel → String
  | .written text => text
  | .made path => "n" ++ "-".intercalate (path.map toString)

/-- The text of a resource. -/
def Resource.text : Resource → String
  | .iri text => bracketed text
  | .blank label => "_:" ++ label.text

/-- The text of a term. -/
def Term.text : Term → String
  | .resource r => r.text
  | .literal l => l.text

end Ontology.Rdf
