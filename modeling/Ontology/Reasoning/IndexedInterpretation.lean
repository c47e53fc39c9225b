import Ontology.Reasoning.Rules

/-!
# Indexed interpretations

An interpretation that keeps its facts in tables as well, one for each way in which they are asked
for, so that an answer is looked up and not collected from all facts.

## Main definitions

* `Table` — entries under keys, in the order in which they were added.
* `IndexedInterpretation` — facts and types with their tables.
* `IndexedInterpretation.addFact`, `IndexedInterpretation.addType` — growth; the answer tells
  whether the entry was new.
* `IndexedInterpretation.values`, `IndexedInterpretation.subjects`, `IndexedInterpretation.factsOf`,
  `IndexedInterpretation.related` — what is looked up.
-/

namespace Ontology

/-! ### Tables -/

/-- Entries under keys. -/
structure Table (κ α : Type) where
  /-- A row for each key that has any entries. -/
  rows : List (κ × List α) := []
  deriving Repr, Inhabited

namespace Table

variable {κ α : Type} [DecidableEq κ]

/-- The entries under a key in rows. -/
def entriesOf (k : κ) : List (κ × List α) → List α
  | [] => []
  | (l, entries) :: rest => if l = k then entries else entriesOf k rest

/-- Rows with an entry behind the others of its key. -/
def pushTo (k : κ) (a : α) : List (κ × List α) → List (κ × List α)
  | [] => [(k, [a])]
  | (l, entries) :: rest =>
    if l = k then (l, entries ++ [a]) :: rest else (l, entries) :: pushTo k a rest

/-- The entries under a key, the oldest first. -/
def get (t : Table κ α) (k : κ) : List α :=
  entriesOf k t.rows

/-- Adds an entry under a key. -/
def push (t : Table κ α) (k : κ) (a : α) : Table κ α :=
  ⟨pushTo k a t.rows⟩

@[simp] theorem get_empty (k : κ) : ({} : Table κ α).get k = [] := rfl

theorem entriesOf_pushTo (k l : κ) (a : α) (rows : List (κ × List α)) :
    entriesOf l (pushTo k a rows) = entriesOf l rows ++ if k = l then [a] else [] := by
  induction rows with
  | nil =>
    rw [pushTo, entriesOf]
    rfl
  | cons row rest ih =>
    obtain ⟨m, entries⟩ := row
    rw [pushTo]
    split
    · next hm =>
      subst hm
      rw [entriesOf, entriesOf]
      split <;> simp
    · next hm =>
      rw [entriesOf, entriesOf, ih]
      split
      · next h =>
        subst h
        rw [if_neg (Ne.symm hm), List.append_nil]
      · rfl

/-- An entry stands behind the others of its key, and the other keys keep theirs. -/
theorem get_push (t : Table κ α) (k l : κ) (a : α) :
    (t.push k a).get l = t.get l ++ if k = l then [a] else [] :=
  entriesOf_pushTo k l a t.rows

end Table

/-! ### Facts and types with their tables -/

/-- The facts and types known at some point of reasoning, each listed and kept in tables. -/
structure IndexedInterpretation where
  /-- The facts, the oldest first. -/
  facts : List Fact := []
  /-- The facts as a set: properties with values, by subject. -/
  known : Table IndividualId (PropertyId × Value) := {}
  valueTable : Table (PropertyId × IndividualId) Value := {}
  /-- The subjects of the facts whose value is an individual. -/
  subjectTable : Table (PropertyId × IndividualId) IndividualId := {}
  factTable : Table PropertyId (IndividualId × Value) := {}
  /-- Individuals with their classes, the oldest first. -/
  types : List (IndividualId × ClassId) := []
  /-- The types as a set: classes, by individual. -/
  knownTypes : Table IndividualId ClassId := {}
  deriving Repr, Inhabited

namespace IndexedInterpretation

/-- The fact is known. -/
def hasFact (X : IndexedInterpretation) (f : Fact) : Bool :=
  (f.property, f.value) ∈ X.known.get f.subject

/-- The individual is known to belong to the class. -/
def hasType (X : IndexedInterpretation) (i : IndividualId) (c : ClassId) : Bool :=
  c ∈ X.knownTypes.get i

/-! ### Growth -/

/-- Adds a fact; the answer tells whether it was new. -/
def addFact (X : IndexedInterpretation) (f : Fact) : IndexedInterpretation × Bool :=
  if X.hasFact f then (X, false)
  else
    ({ X with
      facts := X.facts ++ [f]
      known := X.known.push f.subject (f.property, f.value)
      valueTable := X.valueTable.push (f.property, f.subject) f.value
      subjectTable :=
        match f.value with
        | .individual o => X.subjectTable.push (f.property, o) f.subject
        | _ => X.subjectTable
      factTable := X.factTable.push f.property (f.subject, f.value) }, true)

/-- Adds a type; the answer tells whether it was new. -/
def addType (X : IndexedInterpretation) (i : IndividualId) (c : ClassId) :
    IndexedInterpretation × Bool :=
  if X.hasType i c then (X, false)
  else
    ({ X with types := X.types ++ [(i, c)], knownTypes := X.knownTypes.push i c }, true)

/-- Adds a fact or a type; the answer tells whether it was new. -/
def add (X : IndexedInterpretation) : Derived → IndexedInterpretation × Bool
  | .type i c => X.addType i c
  | .fact f => X.addFact f

/-- What is known after facts and types were added one after the other. -/
def ofList (ds : List Derived) : IndexedInterpretation :=
  ds.foldl (fun X d => (X.add d).1) {}

/-! ### Contents -/

/-- The individuals known to belong to a class. -/
def instancesOf (X : IndexedInterpretation) (c : ClassId) : List IndividualId :=
  X.types.filterMap fun (i, d) => if d = c then some i else none

/-- The subjects and values of the facts of a property. -/
def factsOf (X : IndexedInterpretation) (p : PropertyId) : List (IndividualId × Value) :=
  X.factTable.get p

/-- The values of a property, with the marker that there is none. -/
def values (X : IndexedInterpretation) (p : PropertyId) (s : IndividualId) : List Value :=
  X.valueTable.get (p, s)

/-- The individuals that have an individual as a value of a property. -/
def subjects (X : IndexedInterpretation) (p : PropertyId) (o : IndividualId) :
    List IndividualId :=
  X.subjectTable.get (p, o)

/-- The individual is marked as having no value of the property. -/
def isClosed (X : IndexedInterpretation) (p : PropertyId) (s : IndividualId) : Bool :=
  (X.values p s).any Value.isNothing

/-- The values of a property read in one direction, without the marker that there is none. -/
def related (X : IndexedInterpretation) (r : PropertyExpression) (s : IndividualId) :
    List Value :=
  match r with
  | .named p => (X.values p s).filter (!·.isNothing)
  | .inverse p => (X.subjects p s).map .individual

end IndexedInterpretation

end Ontology
