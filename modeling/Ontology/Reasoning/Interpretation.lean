import Ontology.World.Inference

/-!
# Interpretations

The facts and types known at some point of reasoning.  An interpretation only grows, and lists
its contents in the order in which they were added.

## Main definitions

* `Interpretation` — facts and types, each listed once.
* `Interpretation.addFact`, `Interpretation.addType` — growth; the answer tells whether the entry
  was new.
* `Interpretation.values`, `Interpretation.subjects`, `Interpretation.related` — the ends of the
  facts of a property.
* `World.interpretation` — what is stated or was inferred before.
-/

namespace Ontology

/-- The facts and types known at some point of reasoning. -/
structure Interpretation where
  /-- The facts, the oldest first. -/
  facts : List Fact := []
  /-- Individuals with their classes, the oldest first. -/
  types : List (IndividualId × ClassId) := []
  deriving DecidableEq, Repr, Inhabited

namespace Interpretation

/-! ### Growth -/

/-- Adds a fact; the answer tells whether it was new. -/
def addFact (I : Interpretation) (f : Fact) : Interpretation × Bool :=
  if f ∈ I.facts then (I, false) else ({ I with facts := I.facts ++ [f] }, true)

/-- Adds a type; the answer tells whether it was new. -/
def addType (I : Interpretation) (i : IndividualId) (c : ClassId) : Interpretation × Bool :=
  if (i, c) ∈ I.types then (I, false) else ({ I with types := I.types ++ [(i, c)] }, true)

/-- Adds facts in their order. -/
def addFacts (I : Interpretation) (fs : List Fact) : Interpretation :=
  fs.foldl (fun I f => (I.addFact f).1) I

/-- Adds types in their order. -/
def addTypes (I : Interpretation) (ts : List (IndividualId × ClassId)) : Interpretation :=
  ts.foldl (fun I t => (I.addType t.1 t.2).1) I

/-- The number of facts and types. -/
def size (I : Interpretation) : Nat :=
  I.facts.length + I.types.length

/-! ### Contents -/

/-- The individual is known to belong to the class. -/
def hasType (I : Interpretation) (i : IndividualId) (c : ClassId) : Bool :=
  (i, c) ∈ I.types

/-- The fact is known. -/
def hasFact (I : Interpretation) (f : Fact) : Bool :=
  f ∈ I.facts

/-- The individuals known to belong to a class. -/
def instancesOf (I : Interpretation) (c : ClassId) : List IndividualId :=
  I.types.filterMap fun (i, d) => if d = c then some i else none

/-- The subjects and values of the facts of a property. -/
def factsOf (I : Interpretation) (p : PropertyId) : List (IndividualId × Value) :=
  I.facts.filterMap fun f => if f.property = p then some (f.subject, f.value) else none

/-- The values of a property, with the marker that there is none. -/
def values (I : Interpretation) (p : PropertyId) (s : IndividualId) : List Value :=
  I.facts.filterMap fun f => if f.property = p ∧ f.subject = s then some f.value else none

/-- The individuals that have an individual as a value of a property. -/
def subjects (I : Interpretation) (p : PropertyId) (o : IndividualId) : List IndividualId :=
  I.facts.filterMap fun f =>
    if f.property = p ∧ f.value = .individual o then some f.subject else none

/-- The individual is marked as having no value of the property. -/
def isClosed (I : Interpretation) (p : PropertyId) (s : IndividualId) : Bool :=
  (I.values p s).any Value.isNothing

/-- The values of a property read in one direction, without the marker that there is none. -/
def related (I : Interpretation) (r : PropertyExpression) (s : IndividualId) : List Value :=
  match r with
  | .named p => (I.values p s).filter (!·.isNothing)
  | .inverse p => (I.subjects p s).map .individual

end Interpretation

/-! ### The start of reasoning -/

/-- The facts of rows of values. -/
def Assertions.facts (a : Assertions) (s : IndividualId) : List Fact :=
  a.toList.map fun (p, v) => ⟨s, p, v⟩

/-- What is stated about an individual or was inferred before. -/
def Interpretation.addIndividual (w : World) (I : Interpretation) (i : IndividualId) :
    Interpretation :=
  let d := w.getIndividual i
  ((I.addTypes ((w.directTypes i).map (i, ·))).addFacts (d.facts.facts i)).addFacts
    (d.inferredFacts.facts i)

/-- What is stated in an ontology or was inferred before. -/
def World.interpretation (w : World) : Interpretation :=
  w.individualIds.foldl (Interpretation.addIndividual w) {}

end Ontology
