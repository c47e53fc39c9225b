import Ontology.Loading.Folder
import Ontology.Loading.Meaning

/-!
# The state of loading

## Main definitions

* `LoadSettings` — what can be set from outside.
* `LoadSession` — the ontology so far, with what loading has to remember.
* `LoadSession.individual`, `LoadSession.property` — entities that have to be declared.
-/

namespace Ontology

/-- What can be set from outside. -/
structure LoadSettings where
  /-- The IRI of an ontology whose document gives none. -/
  defaultIri : String := "https://w3id.org/yet/undefined/ontology#"
  /-- An imported file has to declare the IRI that the import names. -/
  strictImportIri : Bool := false
  deriving DecidableEq, Repr, Inhabited

/-- What is known of relation concepts, the classes below the marker class. -/
structure RelationConcepts where
  /-- The marker class. -/
  marker : Option ClassId := none
  /-- The property that the main roles of all concepts imply. -/
  mainRole : Option PropertyId := none
  /-- The concepts of the individuals created for entries, one for each. -/
  created : List ClassId := []
  deriving DecidableEq, Repr, Inhabited

/-- The ontology so far, with what loading has to remember. -/
structure LoadSession where
  world : World
  settings : LoadSettings := {}
  folder : Folder := {}
  /-- The folder that the paths of imports start from. -/
  base : String := ""
  concepts : RelationConcepts := {}
  deriving Repr, Inhabited

namespace LoadSession

/-- What a declared name stands for. -/
def entity (s : LoadSession) (name : String) : Loading Entity := do
  match ← s.world.resolveName false name with
  | .entity _ e => return e
  | _ => (LoadFault.literalAsName name).raise

/-- The individual of a declared name. -/
def individual (s : LoadSession) (name : String) : Loading IndividualId := do
  match ← s.entity name with
  | .individual i => return i
  | _ => (LoadFault.notIndividual name).raise

/-- The property of a declared name. -/
def property (s : LoadSession) (name : String) : Loading PropertyId := do
  match ← s.entity name with
  | .property p => return p
  | _ => (LoadFault.notProperty name).raise

/-- Fails for a name that has been declared. -/
def ensureNew (s : LoadSession) (name : String) : Loading Unit :=
  .ofNames (s.world.names.ensureNew name)

/-- Adds a class. -/
def addClass (s : LoadSession) (c : Class) : Loading (LoadSession × ClassId) := do
  let (world, id) ← Loading.ofNames (s.world.addClass c)
  return ({ s with world }, id)

/-- Adds a property. -/
def addProperty (s : LoadSession) (p : Property) : Loading (LoadSession × PropertyId) := do
  let (world, id) ← Loading.ofNames (s.world.addProperty p)
  return ({ s with world }, id)

/-- Adds an individual. -/
def addIndividual (s : LoadSession) (name : String) (type : ClassExpression) :
    Loading (LoadSession × IndividualId) := do
  let (world, id) ← Loading.ofNames (s.world.addIndividual name type)
  return ({ s with world }, id)

end LoadSession

/-- The body of a declaration; an empty one may be left out. -/
def Shape.declarationBody (context : String) : Tree → Loading (List (Tree × Tree))
  | .null => .ok []
  | t => asMapping context t

end Ontology
