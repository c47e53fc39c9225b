import Ontology.Rdf.Reading

/-!
# N-Triples and N-Quads

One triple on each line, with every IRI written in full.  N-Quads name the graph that a triple
belongs to behind it.

## Main definitions

* `NTriples.read?` — the triples of a text.
* `NTriples.write` — the text of a graph.
-/

namespace Ontology.Rdf.NTriples

open Reader

/-- A triple up to its point; it may name its graph if `quads` holds. -/
def statement (quads : Bool) : Reader Unit := do
  let .resource subject ← plainTerm (← next) | missing
  let .iri predicate ← next | missing
  let object ← match ← next with
    | .text value => do pure (Term.literal (← literal value))
    | .iri iri => pure (.iri iri)
    | .blank label => pure (.blank (.written label))
    | _ => missing
  emit subject predicate object
  if quads then
    match ← peek with
    | some (.iri _) | some (.blank _) =>
      let _ ← next
    | _ => pure ()
  expect "."

/-- All statements, each on a line of its own; `fuel` bounds the number of line ends and
statements. -/
def statements (quads : Bool) : Nat → Reader Unit
  | 0 => missing
  | fuel + 1 => do
    match ← peek with
    | none => pure ()
    | some .lineEnd =>
      let _ ← next
      statements quads fuel
    | some _ =>
      statement quads
      match ← peek with
      | none | some .lineEnd => statements quads fuel
      | some _ => missing

/-- The triples of a text, in its order. -/
def read? (quads : Bool) (text : String) : Option (List Triple) :=
  (statements quads (text.length + 1)).triples? .lines text

/-- One triple with a point behind it. -/
def line (t : Triple) : String :=
  t.subject.text ++ " " ++ bracketed t.predicate ++ " " ++ t.object.text ++ " ."

/-- The text of a list of triples. -/
def write (ts : List Triple) : String :=
  String.join (ts.map fun t => line t ++ "\n")

end Ontology.Rdf.NTriples
