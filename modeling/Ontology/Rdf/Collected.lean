import Ontology.Rdf.Term

/-!
# Collected triples

What every reader of a graph document gathers on its way: triples, and the blank nodes that the
document leaves without a label.

## Main definitions

* `Collected` — the triples so far, with `Collected.triples` in the order of the document.
* `Collected.newNode`, `Collected.add` — a node that is new, and one more triple.
-/

namespace Ontology.Rdf

/-- The triples that have been read. -/
structure Collected where
  /-- The number of nodes made up so far. -/
  made : Nat := 0
  /-- The triples so far, the latest first. -/
  latest : List Triple := []
  deriving Repr, Inhabited

namespace Collected

/-- A blank node that no triple has yet: nodes are numbered in the order in which they are made. -/
def newNode (c : Collected) : Resource × Collected :=
  (.blank (.made [c.made]), { c with made := c.made + 1 })

/-- Adds a triple. -/
def add (c : Collected) (subject : Resource) (predicate : String) (object : Term) : Collected :=
  { c with latest := ⟨subject, predicate, object⟩ :: c.latest }

/-- The triples in the order of the document. -/
def triples (c : Collected) : List Triple :=
  c.latest.reverse

end Collected

end Ontology.Rdf
