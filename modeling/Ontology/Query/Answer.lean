import Ontology.Query.Evaluation
import Ontology.Query.Reader
import Ontology.World.Describe
import Ontology.World.Graph

/-!
# Asking an ontology

A query is answered from the graph of what is stated and inferred.  The values of a query for one
variable are given as entities where they are some.

## Main definitions

* `World.select` — the rows of a query.
* `Answer`, `World.answers` — the values of a query for one variable.
* `World.querySpaces` — the names for spaces that a query need not declare.
-/

namespace Ontology

/-- A value of a query for one variable. -/
inductive Answer where
  | entity (e : Entity)
  /-- The IRI of no entity of the ontology. -/
  | iri (text : String)
  | literal (l : Rdf.Literal)
  | blank (label : Rdf.BlankLabel)
  deriving DecidableEq, Repr

namespace World

/-- The names for spaces that a query need not declare. -/
def querySpaces (w : World) : List (String × String) :=
  [("", w.iri), ("P", w.iri), ("owl", Rdf.owl.space), ("rdf", Rdf.rdf.space),
    ("rdfs", Rdf.rdfs.space), ("xsd", Rdf.xsd.space)]

/-- The rows of a query. -/
def select (w : World) (q : SelectQuery) : Except QueryFault QueryResult :=
  q.answer (w.toGraph true)

/-- What a node of the graph stands for. -/
def answerOf (w : World) : Rdf.Term → Answer
  | .resource (.iri text) => (w.entityByIri? text).elim (.iri text) .entity
  | .resource (.blank label) => .blank label
  | .literal l => .literal l

/-- What the rows of a column stand for, each answer once. -/
def answers (w : World) (r : QueryResult) : List Answer :=
  (r.rows.filterMap fun row => row.head?.join.map w.answerOf).eraseDups

/-- An answer in words. -/
def describeAnswer (w : World) : Answer → String
  | .entity e => w.entityName e
  | .iri text => Rdf.bracketed text
  | .literal l => l.text
  | .blank label => (Rdf.Resource.blank label).text

end World

end Ontology
