import Ontology.Namespace
import Ontology.Reachability

/-!
# The contents of an ontology

All entities of an ontology with the table of their names.  Entities are only ever added, so that
a place, once given out, stays valid.

## Main definitions

* `World` — the contents.
* `World.addClass` and its companions — each declares the name of the new entity first, so that a
  name that is taken leaves the contents as they are.
* `World.lookup?` — what a name stands for, here or in an imported ontology.
* `World.values`, `World.directTypes` — what is stated or inferred about an individual.
* `World.isSubclassOf`, `World.isInstanceOf`, `World.isSubpropertyOf` — the hierarchies.
-/

namespace Ontology

/-- The contents of an ontology. -/
structure World where
  /-- The IRI that the IRIs of entities start with. -/
  iri : String
  names : Namespace := .withBuiltins
  classes : Array Class := #[]
  properties : Array Property := #[]
  individuals : Array Individual := #[]
  rules : Array Rule := #[]
  imports : Array Import := #[]
  comments : List String := []
  /-- Groups of individuals declared to be pairwise different. -/
  differentIndividuals : List (List IndividualId) := []
  deriving Repr, Inhabited

namespace World

/-! ### Entities by their place -/

/-- The class at a place. -/
def class? (w : World) (c : ClassId) : Option Class := w.classes[c.index]?

/-- The property at a place. -/
def property? (w : World) (p : PropertyId) : Option Property := w.properties[p.index]?

/-- The individual at a place. -/
def individual? (w : World) (i : IndividualId) : Option Individual := w.individuals[i.index]?

/-- The class at a place of the ontology. -/
def getClass (w : World) (c : ClassId) : Class :=
  (w.class? c).getD { name := "", isA := [] }

/-- The property at a place of the ontology. -/
def getProperty (w : World) (p : PropertyId) : Property :=
  (w.property? p).getD { name := "", kind := .object }

/-- The individual at a place of the ontology. -/
def getIndividual (w : World) (i : IndividualId) : Individual :=
  (w.individual? i).getD { name := "", isA := [] }

/-- The rule at a place of the ontology. -/
def getRule (w : World) (r : RuleId) : Rule :=
  w.rules[r.index]?.getD { name := "", source := "", body := [], head := [] }

/-- The places of all classes. -/
def classIds (w : World) : List ClassId :=
  (List.range w.classes.size).map ClassId.mk

/-- The places of all properties. -/
def propertyIds (w : World) : List PropertyId :=
  (List.range w.properties.size).map PropertyId.mk

/-- The places of all individuals. -/
def individualIds (w : World) : List IndividualId :=
  (List.range w.individuals.size).map IndividualId.mk

/-- Changes the class at a place. -/
def modifyClass (w : World) (c : ClassId) (f : Class → Class) : World :=
  { w with classes := w.classes.modify c.index f }

/-- Changes the property at a place. -/
def modifyProperty (w : World) (p : PropertyId) (f : Property → Property) : World :=
  { w with properties := w.properties.modify p.index f }

/-- Changes the individual at a place. -/
def modifyIndividual (w : World) (i : IndividualId) (f : Individual → Individual) : World :=
  { w with individuals := w.individuals.modify i.index f }

/-! ### Adding entities -/

/-- The IRI of an entity of this ontology. -/
def entityIri (w : World) (name : String) : String :=
  w.iri ++ name

/-- The given IRI or, if it is empty, the one made from the name. -/
def iriOr (w : World) (iri name : String) : String :=
  if iri.isEmpty then w.entityIri name else iri

/-- Adds a class. -/
def addClass (w : World) (c : Class) : Except NameError (World × ClassId) := do
  let id : ClassId := ⟨w.classes.size⟩
  let names ← w.names.insert c.name (.class id)
  return ({ w with names, classes := w.classes.push { c with iri := w.iriOr c.iri c.name } }, id)

/-- Adds a class of an imported ontology under a name of its own. -/
def addImportedClass (w : World) (name localName iri : String) :
    Except NameError (World × ClassId) := do
  let id : ClassId := ⟨w.classes.size⟩
  let names ← w.names.insert name (.class id)
  return ({ w with
    names, classes := w.classes.push { name := localName, iri, imported := true } }, id)

/-- Adds a property. -/
def addProperty (w : World) (p : Property) : Except NameError (World × PropertyId) := do
  let id : PropertyId := ⟨w.properties.size⟩
  let names ← w.names.insert p.name (.property id)
  return ({ w with
    names, properties := w.properties.push { p with iri := w.iriOr p.iri p.name } }, id)

/-- Adds an individual. -/
def addIndividual (w : World) (name : String) (type : ClassExpression) :
    Except NameError (World × IndividualId) := do
  let id : IndividualId := ⟨w.individuals.size⟩
  let names ← w.names.insert name (.individual id)
  return ({ w with
    names, individuals := w.individuals.push { name, iri := w.entityIri name, isA := [type] } },
    id)

/-- Adds a rule. -/
def addRule (w : World) (r : Rule) : Except NameError (World × RuleId) := do
  let id : RuleId := ⟨w.rules.size⟩
  let names ← w.names.insert r.name (.rule id)
  return ({ w with names, rules := w.rules.push r }, id)

/-- Adds an imported ontology: its IRI and its qualifier may start the names of its classes. -/
def addImport (w : World) (i : Import) : World :=
  let place := w.imports.size
  let names := w.names.registerQualifier i.iri place
  let names := i.qualifier.elim names (names.registerQualifier · place)
  { w with names, imports := w.imports.push i }

/-- Adds a comment on the ontology. -/
def addComment (w : World) (comment : String) : World :=
  { w with comments := w.comments ++ [comment] }

/-- Adds a group of pairwise different individuals. -/
def addDifferent (w : World) (group : List IndividualId) : World :=
  { w with differentIndividuals := w.differentIndividuals ++ [group] }

/-- Adds an axiom about a class. -/
def addClassAxiom (w : World) (c : ClassId) (e : ClassExpression) : World :=
  w.modifyClass c fun d => { d with isA := d.isA ++ [e] }

/-- Adds an axiom about an individual. -/
def addIndividualAxiom (w : World) (i : IndividualId) (e : ClassExpression) : World :=
  w.modifyIndividual i fun d => { d with isA := d.isA ++ [e] }

/-! ### Names -/

/-- What a name stands for: an entity declared under it or, for a qualified name, a class of an
imported ontology. -/
def lookup? (w : World) (name : String) : Option Entity :=
  match w.names.get? name with
  | some entity => some entity
  | none => do
    let (place, localName) ← w.names.splitQualified? name
    let i ← w.imports[place]?
    (i.classes.lookup localName).map .class

/-- The class of a name. -/
def classNamed? (w : World) (name : String) : Option ClassId :=
  match w.lookup? name with
  | some (.class c) => some c
  | _ => none

/-- The property of a name. -/
def propertyNamed? (w : World) (name : String) : Option PropertyId :=
  match w.lookup? name with
  | some (.property p) => some p
  | _ => none

/-- The individual of a name. -/
def individualNamed? (w : World) (name : String) : Option IndividualId :=
  match w.lookup? name with
  | some (.individual i) => some i
  | _ => none

/-- The entity of an IRI; individuals come before classes and classes before properties. -/
def entityByIri? (w : World) (iri : String) : Option Entity :=
  ((w.individuals.findIdx? (·.iri = iri)).map fun n => .individual ⟨n⟩)
    <|> ((w.classes.findIdx? (·.iri = iri)).map fun n => .class ⟨n⟩)
    <|> ((w.properties.findIdx? (·.iri = iri)).map fun n => .property ⟨n⟩)

/-! ### Facts -/

/-- Replaces the stated values of a property. -/
def setFact (w : World) (s : IndividualId) (p : PropertyId) (v : Value) : World :=
  w.modifyIndividual s fun i => { i with facts := i.facts.set p v }

/-- Adds a stated value of a property. -/
def pushFact (w : World) (s : IndividualId) (p : PropertyId) (v : Value) : World :=
  w.modifyIndividual s fun i => { i with facts := i.facts.push p v }

/-- The stated values of a property. -/
def assertedValues (w : World) (s : IndividualId) (p : PropertyId) : List Value :=
  (w.getIndividual s).facts.get p

/-- The stated values followed by the inferred ones, each once. -/
def values (w : World) (s : IndividualId) (p : PropertyId) : List Value :=
  freshNodes [] (w.assertedValues s p ++ (w.getIndividual s).inferredFacts.get p)

/-- The first value that is not the marker for no value. -/
def value? (w : World) (s : IndividualId) (p : PropertyId) : Option Value :=
  (w.values s p).find? (!·.isNothing)

/-! ### Hierarchies -/

/-- The named types of an individual, stated or inferred, without their superclasses. -/
def directTypes (w : World) (i : IndividualId) : List ClassId :=
  let individual := w.getIndividual i
  let stated := individual.isA.filterMap ClassExpression.named?
  stated ++ freshNodes stated individual.inferredTypes

/-- A class is reached from another one, or is itself, by going to named parents. -/
def isSubclassOf (w : World) (sub sup : ClassId) : Bool :=
  reaches (fun c => (w.getClass c).parents) w.classes.size sub sup

/-- A direct type of the individual is the class or one below it. -/
def isInstanceOf (w : World) (i : IndividualId) (c : ClassId) : Bool :=
  (w.directTypes i).any (w.isSubclassOf · c)

/-- A property is reached from another one, or is itself, by going to parents. -/
def isSubpropertyOf (w : World) (sub sup : PropertyId) : Bool :=
  reaches (fun p => (w.getProperty p).parents) w.properties.size sub sup

end World

end Ontology
