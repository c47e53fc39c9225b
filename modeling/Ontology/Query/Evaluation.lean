import Ontology.Binary64
import Ontology.Query.Syntax

/-!
# Answering queries

The patterns of a query are matched against the triples of a graph one after the other, those with
the most known places first.  Numbers are compared by their value, whatever their datatype.

## Main definitions

* `Rdf.Literal.sameAs`, `Rdf.Term.sameAs` — equality of terms.
* `TriplePattern.solutions` — the bindings under which a pattern lies in a graph.
* `SelectQuery.plan` — the order in which patterns are matched.
* `SelectQuery.answer` — the rows of a query.
-/

namespace Ontology

/-! ### Equality of terms -/

/-- The value of a literal with a numeric datatype. -/
def Rdf.Literal.number? : Rdf.Literal → Option Binary64
  | .typed value datatype => if datatype ∈ xsd.numeric then Binary64.ofText? value else none
  | .tagged _ _ => none

/-- Two literals are equal, or both are numbers of one value. -/
def Rdf.Literal.sameAs (a b : Rdf.Literal) : Bool :=
  a = b ||
    match a.number?, b.number? with
    | some x, some y => x.sameValue y
    | _, _ => false

/-- Two terms are equal, or both are numbers of one value. -/
def Rdf.Term.sameAs : Rdf.Term → Rdf.Term → Bool
  | .literal a, .literal b => a.sameAs b
  | a, b => a = b

/-! ### Matching -/

/-- Terms for variables. -/
abbrev Solution := List (String × Rdf.Term)

namespace PatternTerm

/-- The term that a place stands for; a variable stands for one only if it is bound. -/
def value? (s : Solution) : PatternTerm → Option Rdf.Term
  | .variable name => s.lookup name
  | .iri text => some (.iri text)
  | .literal l => some (.literal l)

/-- Makes a place match a term, by binding it if it is a variable that is not bound. -/
def unify (s : Solution) (p : PatternTerm) (t : Rdf.Term) : Option Solution :=
  match p with
  | .variable name =>
    match s.lookup name with
    | some bound => if bound.sameAs t then some s else none
    | none => some ((name, t) :: s)
  | .iri text => if t = .iri text then some s else none
  | .literal l =>
    match t with
    | .literal m => if l.sameAs m then some s else none
    | .resource _ => none

end PatternTerm

namespace TriplePattern

/-- Makes a pattern match a triple. -/
def unify (s : Solution) (p : TriplePattern) (t : Rdf.Triple) : Option Solution := do
  let s ← p.subject.unify s (.resource t.subject)
  let s ← p.predicate.unify s (.iri t.predicate)
  p.object.unify s t.object

/-- The solutions that extend another one such that a pattern lies in a graph. -/
def solutions (g : Rdf.Graph) (s : Solution) (p : TriplePattern) : List Solution :=
  g.triples.filterMap (p.unify s)

/-- The number of places that are known when the variables are. -/
def knownPlaces (known : List String) (p : TriplePattern) : Nat :=
  p.terms.countP fun t => t.variable?.all (known.contains ·)

end TriplePattern

namespace SelectQuery

/-! ### The order of patterns -/

/-- The place of the last pattern with the most known places. -/
def bestPlace (known : List String) : List TriplePattern → Nat
  | [] => 0
  | p :: rest =>
    let later := bestPlace known rest
    match rest[later]? with
    | some q => if q.knownPlaces known < p.knownPlaces known then 0 else later + 1
    | none => 0

/-- Patterns in the order in which they are matched; the pattern with the most known places comes
next. -/
def planFrom (known : List String) : Nat → List TriplePattern → List TriplePattern
  | 0, _ => []
  | count + 1, ps =>
    let place := bestPlace known ps
    match ps[place]? with
    | some p => p :: planFrom (known ++ p.mentioned) count (ps.eraseIdx place)
    | none => []

/-- The patterns of a query in the order in which they are matched. -/
def plan (q : SelectQuery) : List TriplePattern :=
  planFrom [] q.patterns.length q.patterns

/-! ### Answers -/

/-- The solutions of patterns that are matched in the order given. -/
def solutions (g : Rdf.Graph) (ps : List TriplePattern) : List Solution :=
  ps.foldl (fun ss p => ss.flatMap fun s => p.solutions g s) [[]]

end SelectQuery

/-- The rows of a query. -/
structure QueryResult where
  /-- The variables, whose values make up the columns. -/
  columns : List String
  rows : List (List (Option Rdf.Term))
  deriving DecidableEq, Repr, Inhabited

/-- The terms of a column; there are none for an unknown variable. -/
def QueryResult.column (r : QueryResult) (name : String) : List Rdf.Term :=
  match r.columns.idxOf? name with
  | some k => r.rows.filterMap fun row => row[k]?.join
  | none => []

/-- The rows of a query in a graph.  Every variable that is asked for has to occur in a pattern. -/
def SelectQuery.answer (q : SelectQuery) (g : Rdf.Graph) : Except QueryFault QueryResult :=
  match q.projected.find? (· ∉ q.mentioned) with
  | some name => .error (.unbound name)
  | none =>
    let rows := (solutions g q.plan).map fun s => q.projected.map (s.lookup ·)
    .ok { columns := q.projected, rows := if q.isDistinct then rows.eraseDups else rows }

end Ontology
