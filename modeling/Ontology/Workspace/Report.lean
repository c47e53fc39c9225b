import Ontology.Query.Answer
import Ontology.World.Inference

/-!
# Reports

What a reasoner found and what a query gives, as lines for reading and as data.

## Main definitions

* `World.reportText`, `World.reportTree` — what a reasoner found.
* `QueryResult.text`, `QueryResult.tree` — the rows of a query.
-/

namespace Ontology

namespace World

/-- One line for every inferred type and value, and one for the models of the last search. -/
def reportText (w : World) (r : InferenceReport) : String :=
  let types := r.inferredTypes.map fun (i, c) =>
    (w.getIndividual i).name ++ " a " ++ (w.getClass c).name ++ "\n"
  let facts := r.inferredFacts.map fun f =>
    (w.getIndividual f.subject).name ++ " " ++ (w.getProperty f.property).name ++ " "
      ++ w.describeValue f.value ++ "\n"
  let ending := if r.exhaustive then "" else " (search stopped at the model cap)"
  String.join (types ++ facts) ++ "models: " ++ toString r.models ++ ending ++ "\n"

/-- An inferred type as data. -/
def typeTree (w : World) (i : IndividualId) (c : ClassId) : Tree :=
  .object [("class", .string (w.getClass c).name),
    ("individual", .string (w.getIndividual i).name)]

/-- An inferred value as data. -/
def factTree (w : World) (f : Fact) : Tree :=
  .object [("property", .string (w.getProperty f.property).name),
    ("subject", .string (w.getIndividual f.subject).name),
    ("value", .string (w.describeValue f.value))]

/-- What a reasoner found as data; the names are in order. -/
def reportTree (w : World) (r : InferenceReport) : Tree :=
  .object [("exhaustive", .bool r.exhaustive),
    ("inferred_facts", .sequence (r.inferredFacts.map w.factTree)),
    ("inferred_types", .sequence (r.inferredTypes.map fun (i, c) => w.typeTree i c)),
    ("iterations", .int r.iterations),
    ("models", .int r.models)]

end World

namespace QueryResult

/-- The text of a cell; one without a term is empty. -/
def cellText (cell : Option Rdf.Term) : String :=
  cell.elim "" Rdf.Term.text

/-- A line with the variables and one for every row, with tabs between the columns. -/
def text (r : QueryResult) : String :=
  let lines := r.columns.map ("?" ++ ·) :: r.rows.map (·.map cellText)
  String.join (lines.map fun cells => "\t".intercalate cells ++ "\n")

/-- A row as data, with its variables in order; a cell without a term is left out. -/
def rowTree (r : QueryResult) (row : List (Option Rdf.Term)) : Tree :=
  let names := r.columns.eraseDups.mergeSort fun a b => a ≤ b
  .object (names.filterMap fun name => do
    let term ← ((r.columns.zip row).lookup name).join
    return (name, .string term.text))

/-- The rows of a query as data; the names are in order. -/
def tree (r : QueryResult) : Tree :=
  .object [("rows", .sequence (r.rows.map r.rowTree)),
    ("variables", .sequence (r.columns.map .string))]

end QueryResult

end Ontology
