import Ontology.Rdf.Term

/-!
# Canonical lines

A graph as lines that do not depend on the labels of blank nodes or on the order of triples: a blank
node is written where it is used, with what is said about it.

## Main definitions

* `Graph.canonicalLines` — the sorted lines of a graph.
-/

namespace Ontology.Rdf

namespace Graph

/-- The predicates and objects of a subject. -/
def about (g : Graph) (s : Resource) : List (String × Term) :=
  g.triples.filterMap fun t => if t.subject = s then some (t.predicate, t.object) else none

/-- The only object of a predicate. -/
def only? (entries : List (String × Term)) (predicate : String) : Option Term :=
  match entries.filter (·.1 = predicate) with
  | [(_, object)] => some object
  | _ => none

/-- The first item and the rest of a cell of a list. -/
def cell? (entries : List (String × Term)) : Option (Term × Term) :=
  match entries with
  | [_, _] => do return (← only? entries rdf.first, ← only? entries rdf.rest)
  | _ => none

/-- The items of a list with at most `size` cells. -/
def listItems? (g : Graph) : Nat → Term → Option (List Term)
  | 0, _ => none
  | size + 1, t =>
    match t with
    | .resource (.blank label) => do
      let (item, rest) ← cell? (g.about (.blank label))
      return item :: (← g.listItems? size rest)
    | t => if t = .iri rdf.nil then some [] else none

/-- The text of a term with what is said about blank nodes, to a depth. -/
def canonicalText (g : Graph) : Nat → Term → String
  | 0, t => t.text
  | depth + 1, t =>
    match t with
    | .resource (.blank label) =>
      match g.listItems? (g.triples.length + 1) t with
      | some items => "( " ++ " ".intercalate (items.map (g.canonicalText depth)) ++ " )"
      | none =>
        let entries := (g.about (.blank label)).map fun (p, o) =>
          bracketed p ++ " " ++ g.canonicalText depth o
        "[ " ++ " ; ".intercalate (entries.mergeSort fun a b => a ≤ b) ++ " ]"
    | t => t.text

/-- The node is an object of the graph. -/
def isObject (g : Graph) (r : Resource) : Bool :=
  g.triples.any (·.object = .resource r)

/-- The blank nodes that are subjects but no objects, each once. -/
def topBlanks (g : Graph) : List BlankLabel :=
  let labels := g.triples.filterMap fun t =>
    match t.subject with
    | .blank label => some label
    | .iri _ => none
  labels.eraseDups.filter fun label => !g.isObject (.blank label)

/-- The lines of a graph, in order. -/
def canonicalLines (g : Graph) : List String :=
  let depth := g.triples.length + 1
  let lines := g.triples.filterMap fun t =>
    match t.subject with
    | .iri s =>
      some (bracketed s ++ " " ++ bracketed t.predicate ++ " " ++ g.canonicalText depth t.object)
    | .blank _ => none
  let blanks := g.topBlanks.map fun label => g.canonicalText depth (.blank label)
  (lines ++ blanks).mergeSort fun a b => a ≤ b

end Graph

end Ontology.Rdf
