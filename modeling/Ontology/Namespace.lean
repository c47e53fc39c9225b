import Ontology.Entity

/-!
# Names

The names declared so far, over the fixed vocabulary of documents, with the qualifiers of
imported ontologies and custom attributes of entities.

## Main definitions

* `Namespace` — the table; `Namespace.withBuiltins` holds the fixed vocabulary.
* `Namespace.insert` — declares a name; no name is declared twice.
* `Namespace.splitQualified?` — the import and the local name that a qualified name stands for.
-/

namespace Ontology

/-- Why a name cannot be used. -/
inductive NameError where
  | unknown (name : String)
  | collision (name : String)
  deriving DecidableEq, Repr

/-- What is wrong with a name, in words. -/
def NameError.message : NameError → String
  | .unknown name => "unknown entity name: " ++ name
  | .collision name => "This concept name was declared more than once: " ++ name

/-- The names declared so far. -/
structure Namespace where
  /-- Names and what they stand for, the latest first. -/
  names : List (String × Entity) := []
  /-- What qualified names may start with, with the place of the import, the oldest first. -/
  qualifiers : List (String × Nat) := []
  /-- Custom attributes of entities, the latest first. -/
  attributes : List ((Entity × String) × String) := []
  deriving Repr, Inhabited

namespace Namespace

/-- The fixed vocabulary of documents. -/
def builtins : List (String × Entity) := [
  ("owl:Thing", .thing),
  ("owl:Nothing", .nothing),
  ("Functional", .characteristic .functional),
  ("InverseFunctional", .characteristic .inverseFunctional),
  ("Symmetric", .characteristic .symmetric),
  ("Transitive", .characteristic .transitive),
  ("Inverse", .inverse),
  ("int", .datatype .int),
  ("float", .datatype .float),
  ("str", .datatype .text),
  ("bool", .datatype .bool),
  ("Or", .connective .or),
  ("And", .connective .and),
  ("Not", .connective .not),
  ("some", .quantifier .some),
  ("value", .quantifier .value)]

/-- The table with the fixed vocabulary. -/
def withBuiltins : Namespace := { names := builtins }

/-- What a name stands for. -/
def get? (ns : Namespace) (name : String) : Option Entity :=
  ns.names.lookup name

/-- The name has been declared. -/
def contains (ns : Namespace) (name : String) : Bool :=
  (ns.get? name).isSome

/-- Fails for a name that has been declared. -/
def ensureNew (ns : Namespace) (name : String) : Except NameError Unit :=
  if ns.contains name then .error (.collision name) else .ok ()

/-- What a name stands for; fails for a name that has not been declared. -/
def ensureKnown (ns : Namespace) (name : String) : Except NameError Entity :=
  (ns.get? name).elim (.error (.unknown name)) .ok

/-- Declares a new name. -/
def insert (ns : Namespace) (name : String) (entity : Entity) : Except NameError Namespace :=
  if ns.contains name then .error (.collision name)
  else .ok { ns with names := (name, entity) :: ns.names }

/-- Lets names that start with a qualifier refer to an import. -/
def registerQualifier (ns : Namespace) (qualifier : String) (place : Nat) : Namespace :=
  { ns with qualifiers := ns.qualifiers ++ [(qualifier, place)] }

/-- The import and the local name of a name with a colon: the oldest qualifier that the name
starts with decides. -/
def splitQualified? (ns : Namespace) (name : String) : Option (Nat × String) :=
  if name.toList.contains ':' then
    ns.qualifiers.findSome? fun (qualifier, place) =>
      if qualifier.toList.isPrefixOf name.toList then
        some (place, String.ofList (name.toList.drop qualifier.toList.length))
      else none
  else none

/-- The value of a custom attribute. -/
def attribute? (ns : Namespace) (entity : Entity) (key : String) : Option String :=
  ns.attributes.lookup (entity, key)

/-- Sets a custom attribute. -/
def setAttribute (ns : Namespace) (entity : Entity) (key value : String) : Namespace :=
  { ns with attributes := ((entity, key), value) :: ns.attributes }

end Namespace

end Ontology
