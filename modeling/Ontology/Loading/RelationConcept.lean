import Ontology.Loading.Facts

/-!
# Relation concepts

A relation of more than two participants is a class below the marker class `X_RelationConcept`.
Declaring one also declares its main role, the property `X_has…` from the associated classes to the
class; every entry of a fact about it becomes an individual of its own.

## Main definitions

* `LoadSession.noteConcept` — what the declaration of a class adds.
* `LoadSession.relationFacts` — a statement of such facts.
-/

namespace Ontology

namespace RelationConcepts

/-- The name of the marker class. -/
def markerName : String := "X_RelationConcept"

/-- The name of the property that all main roles imply. -/
def mainRoleName : String := "generic_RC_main_role"

/-- What the names of concepts start with. -/
def namePart : String := "X_"

/-- The name of the main role of a concept. -/
def roleName (concept : String) : String :=
  "X_has" ++ String.ofList (concept.toList.drop namePart.length)

/-- The name of an individual created for an entry of a concept. -/
def entryName (concept : String) (n : Nat) : String :=
  "i" ++ concept ++ "_" ++ toString n

/-- The number of individuals created for a concept. -/
def count (r : RelationConcepts) (c : ClassId) : Nat :=
  r.created.count c

end RelationConcepts

namespace LoadSession

open RelationConcepts

/-- Declares the property that all main roles imply and remembers the marker class. -/
def noteMarker (s : LoadSession) (c : ClassId) : Loading LoadSession := do
  let (s, p) ← s.addProperty { name := mainRoleName, kind := .object }
  return { s with concepts := { s.concepts with marker := some c, mainRole := some p } }

/-- Declares the main role of a concept. -/
def addMainRole (s : LoadSession) (name : String) (c : ClassId) (body : List (String × Node)) :
    Loading LoadSession := do
  if !namePart.toList.isPrefixOf name.toList then LoadFault.badConceptName.raise
  else
    match body.lookup "X_associatedWithClasses" with
    | none => (LoadFault.missingAssociatedClasses name).raise
    | some associated =>
      let domain ← associated.items.mapM Node.toClassExpression
      let (s, _) ← s.addProperty {
        name := roleName name
        kind := .object
        domain
        range := .classes [.named c]
        parents := s.concepts.mainRole.toList }
      match body.lookup "X_associatedRoles" with
      | some roles =>
        if roles.items.isEmpty then return s else (LoadFault.associatedRoles name).raise
      | none => return s

/-- What the declaration of a class adds: nothing, unless the class is the marker or below it. -/
def noteConcept (s : LoadSession) (name : String) (c : ClassId) (body : List (String × Node)) :
    Loading LoadSession :=
  if name = markerName then s.noteMarker c
  else
    match s.concepts.marker with
    | none => .ok s
    | some marker =>
      if s.world.isSubclassOf c marker then s.addMainRole name c body else .ok s

/-! ### Facts -/

/-- Creates the individual of an entry. -/
def addEntry (s : LoadSession) (concept : ClassId) : Loading (LoadSession × IndividualId) := do
  let name := entryName (s.world.getClass concept).name (s.concepts.count concept)
  let (s, i) ← s.addIndividual name (.named concept)
  return ({ s with concepts := { s.concepts with created := concept :: s.concepts.created } }, i)

/-- States one value of an entry. -/
def applyRole (s : LoadSession) (entry : IndividualId) (role : Term) (value : PairValue) :
    Loading LoadSession :=
  match role.entity? with
  | some (.property p) =>
    match value with
    | .many _ => (LoadFault.listForRole (s.world.getProperty p).name).raise
    | .single t => s.applyFact p entry (.single t)
  | _ => (LoadFault.expectedPropertyRole role.display).raise

/-- States an entry about a subject: its individual and the values of its roles. -/
def applyEntry (s : LoadSession) (subject : IndividualId) (p : PropertyId) (concept : ClassId) :
    Node → Loading LoadSession
  | .pairs roles => do
    let (s, entry) ← s.addEntry concept
    let s := { s with world := s.world.pushFact subject p (.individual entry) }
    roles.foldlM (fun s (role, value) => s.applyRole entry role value) s
  | n => (LoadFault.expectedRolePairs (s.world.getProperty p).name n.describe).raise

/-- States the entries of a main role about a subject. -/
def applyEntries (s : LoadSession) (subject : IndividualId) (role : Term) (node : Node) :
    Loading LoadSession :=
  match role.entity? with
  | some (.property p) =>
    match (s.world.getProperty p).rangeClasses.head? with
    | some (.named concept) => node.items.foldlM (fun s n => s.applyEntry subject p concept n) s
    | _ => (LoadFault.notRelationConcept (s.world.getProperty p).name).raise
  | _ => (LoadFault.expectedMainRole role.display).raise

/-- A statement of facts about relations: subjects with their main roles. -/
def relationFacts (s : LoadSession) (t : Tree) : Loading LoadSession := do
  let entries ← Shape.stringEntries (← Shape.asMapping "relation_concept_facts" t)
  entries.foldlM (fun s (name, inner) => do
    let subject ← s.individual name
    let inner ← Shape.asMapping "relation_concept_facts" inner
    let roles ← s.world.readNamed "__rc_facts" inner
    roles.foldlM (fun s (role, node) => s.applyEntries subject role node) s) s

end LoadSession

end Ontology
