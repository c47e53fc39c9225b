import Ontology.Query.Token
import Ontology.Rdf.Term

/-!
# Queries

A query selects values of variables for which a list of patterns lies in a graph.

## Main definitions

* `PatternTerm`, `TriplePattern` — what is looked for.
* `SelectQuery` — a query, and `SelectQuery.projected`, the variables whose values it gives.
* `QueryFault` — why a query cannot be read or answered.
-/

namespace Ontology

/-- A place of a pattern. -/
inductive PatternTerm where
  | variable (name : String)
  | iri (text : String)
  | literal (l : Rdf.Literal)
  deriving DecidableEq, Repr, Inhabited

/-- The variable at a place. -/
def PatternTerm.variable? : PatternTerm → Option String
  | .variable name => some name
  | _ => none

/-- Triples that are looked for. -/
structure TriplePattern where
  subject : PatternTerm
  predicate : PatternTerm
  object : PatternTerm
  deriving DecidableEq, Repr, Inhabited

namespace TriplePattern

/-- The places of a pattern. -/
def terms (p : TriplePattern) : List PatternTerm :=
  [p.subject, p.predicate, p.object]

/-- The variables of a pattern, from left to right. -/
def mentioned (p : TriplePattern) : List String :=
  p.terms.filterMap PatternTerm.variable?

end TriplePattern

/-- The variables that a query asks for. -/
inductive Projection where
  | all
  | named (names : List String)
  deriving DecidableEq, Repr, Inhabited

/-- A query. -/
structure SelectQuery where
  /-- The names for spaces that the query declares, the last declaration of each. -/
  declared : List (String × String) := []
  /-- Equal rows are given once. -/
  isDistinct : Bool := false
  projection : Projection
  patterns : List TriplePattern
  deriving DecidableEq, Repr, Inhabited

namespace SelectQuery

/-- All variables, in the order of their first occurrence. -/
def mentioned (q : SelectQuery) : List String :=
  (q.patterns.flatMap TriplePattern.mentioned).eraseDups

/-- The variables whose values a query gives. -/
def projected (q : SelectQuery) : List String :=
  match q.projection with
  | .all => q.mentioned
  | .named names => names

end SelectQuery

/-! ### Faults -/

/-- Why a query cannot be read or answered. -/
inductive QueryFault where
  /-- A part of the text is no token. -/
  | stray (part : Text.Stray)
  /-- Something else was expected; there may be no token left. -/
  | unexpected (expected : String) (found : Option QueryToken)
  /-- A word that asks for something that queries cannot do. -/
  | unsupported (word : String)
  | relativeIri (reference : String)
  | unknownSpace (name : String)
  | badIri (text : String)
  | badLanguage (tag : String)
  | badEscape (text : String)
  /-- A variable that is asked for does not occur in a pattern. -/
  | unbound (name : String)
  deriving DecidableEq, Repr

/-- The families of faults. -/
inductive QueryFaultKind where
  | parsing
  | evaluation
  | unsupported
  deriving DecidableEq, Repr

/-- The name of a family. -/
def QueryFaultKind.name : QueryFaultKind → String
  | .parsing => "ParseError"
  | .evaluation => "EvaluationError"
  | .unsupported => "UnsupportedFeature"

namespace QueryFault

/-- The family of a fault. -/
def kind : QueryFault → QueryFaultKind
  | .unsupported _ => .unsupported
  | .unbound _ => .evaluation
  | _ => .parsing

/-- What is wrong, in words. -/
def problem : QueryFault → String
  | .stray part =>
    "unexpected input \x60" ++ part.text ++ "\x60 at offset " ++ toString part.offset
  | .unexpected expected found =>
    "expected " ++ expected ++ ", found " ++ found.elim "end of query" QueryToken.outline
  | .unsupported word => word
  | .relativeIri reference => "relative IRI <" ++ reference ++ "> without BASE"
  | .unknownSpace name => "unknown prefix \x60" ++ name ++ ":\x60"
  | .badIri text => "not an IRI: <" ++ text ++ ">"
  | .badLanguage tag => "not a language tag: @" ++ tag
  | .badEscape text => "invalid escape sequence \x60\\" ++ text ++ "\x60"
  | .unbound name => "?" ++ name ++ " is not bound by the WHERE clause"

/-- The full text of a fault. -/
def message (f : QueryFault) : String :=
  match f.kind with
  | .parsing => "Parse error: " ++ f.problem
  | .evaluation => "Evaluation error: " ++ f.problem
  | .unsupported => "Unsupported feature: " ++ f.problem

end QueryFault

end Ontology
