import Ontology.Loading.RelationConcept
import Ontology.Loading.Restriction

/-!
# Declarations

The statements that declare classes, properties and individuals, and those that add axioms about
them.

## Main definitions

* `LoadSession.declareIndividual`, `LoadSession.declareIndividuals`
* `LoadSession.declareClass`, `LoadSession.declareClasses`
* `LoadSession.declareProperty`, `LoadSession.declareInverse`
* `LoadSession.addRestriction`, `LoadSession.addDifferent`, `LoadSession.addAnnotation`
-/

namespace Ontology

namespace LoadSession

/-! ### Individuals -/

/-- Declares an individual of the only type that its body names. -/
def individualOf (s : LoadSession) (name : String) (body : Tree) : Loading LoadSession := do
  s.ensureNew name
  let entries ← Shape.declarationBody "individual declaration" body
  match Tree.lookup? entries "types" with
  | none => (LoadFault.missingTypes name).raise
  | some types =>
    let parsed ← s.world.readKeywords [(.string "types", types)]
    let types ← ((parsed.lookup "types").elim [] Node.items).mapM Node.toNamedClass
    match types with
    | [] => (LoadFault.noType name).raise
    | [type] =>
      let (s, _) ← s.addIndividual name type
      return s
    | _ => (LoadFault.severalTypes name).raise

/-- A statement that declares an individual. -/
def declareIndividual (s : LoadSession) (t : Tree) : Loading LoadSession := do
  let (name, body) ← Shape.single t
  s.individualOf name body

/-- A statement that declares several individuals with one body. -/
def declareIndividuals (s : LoadSession) (t : Tree) : Loading LoadSession := do
  let entries ← Shape.asMapping "owl_multiple_individuals" t
  let names ← Shape.required "names" entries
  let body := Tree.mapping (Tree.eraseKey "names" entries)
  (Shape.listOf names).foldlM (fun s name => do
    s.individualOf (← Shape.asString "owl_multiple_individuals names" name) body) s

/-! ### Classes -/

/-- The key of the flag for individuals that stand for a class. -/
def proxyKey : String := "__create_proxy_individual"

/-- Whether an individual stands for a class. -/
inductive ProxyFlag where
  /-- There is none. -/
  | absent
  /-- There is one. -/
  | present
  /-- There is one, also for classes below that say nothing themselves. -/
  | recursive
  deriving DecidableEq, Repr

/-- The custom attribute that a flag leaves at a class. -/
def ProxyFlag.attribute? : ProxyFlag → Option String
  | .absent => none
  | .present => some "True"
  | .recursive => some "recursive"

/-- The flag of a class: the one in its body or, if that says nothing, the one of its first
parent if that is passed on. -/
def proxyFlag (s : LoadSession) (c : ClassId) (body : List (String × Node)) :
    Loading ProxyFlag :=
  match body.lookup proxyKey with
  | none | some (.raw .null) =>
    let parent := (s.world.getClass c).isA.head?.bind ClassExpression.named?
    let inherited := parent.bind fun parent =>
      s.world.names.attribute? (.class parent) proxyKey
    .ok (if inherited = some "recursive" then .recursive else .absent)
  | some (.raw (.bool false)) => .ok .absent
  | some (.raw (.bool true)) | some (.raw (.string "True")) => .ok .present
  | some (.raw (.string "recursive")) => .ok .recursive
  | some n => (LoadFault.badProxyFlag n.describe).raise

/-- Declares the individual that stands for a class if the flag says so. -/
def addProxy (s : LoadSession) (c : ClassId) (body : List (String × Node)) :
    Loading LoadSession := do
  match (← s.proxyFlag c body).attribute? with
  | none => return s
  | some value =>
    let names := s.world.names.setAttribute (.class c) proxyKey value
    let s := { s with world := { s.world with names } }
    let (s, _) ← s.addIndividual ("i" ++ (s.world.getClass c).name) (.named c)
    return s

/-- The texts below a keyword. -/
def textsBelow (keyword : String) (body : List (String × Node)) : Loading (List String) :=
  match body.lookup keyword with
  | some n => n.toTexts
  | none => .ok []

/-- The parents that a body names; without any, the class of all things is the parent. -/
def parentsOf (body : List (String × Node)) : Loading (List ClassExpression) :=
  match body.lookup "SubClassOf" with
  | none => .ok [.thing]
  | some n => do
    match ← n.items.mapM Node.toNamedClass with
    | [] => return [.thing]
    | parents => return parents

/-- The definition that a body gives. -/
def definitionOf (body : List (String × Node)) : Loading (List ClassExpression) :=
  match body.lookup "EquivalentTo" with
  | some n => do return [← n.toClassExpression]
  | none => .ok []

/-- A statement that declares a class. -/
def declareClass (s : LoadSession) (t : Tree) : Loading LoadSession := do
  let (name, inner) ← Shape.single t
  s.ensureNew name
  let body ← s.world.readKeywords (← Shape.declarationBody "owl_class" inner)
  let isA ← parentsOf body
  let comments ← textsBelow "annotations" body
  let labels ← textsBelow "labels" body
  let equivalentTo ← definitionOf body
  let (s, c) ← s.addClass { name, isA, comments, labels, equivalentTo }
  let s ← s.noteConcept name c body
  s.addProxy c body

/-- A statement that declares several classes. -/
def declareClasses (s : LoadSession) (t : Tree) : Loading LoadSession :=
  match t.items? with
  | some items => items.foldlM declareClass s
  | none => (LoadFault.expectedClassList t.render).raise

/-! ### Properties -/

/-- The kind of a property is that of its statement, and its range has to agree. -/
def checkRange (name : String) (kind : PropertyKind) (range : PropertyRange) : Loading Unit :=
  match range, kind with
  | .classes _, .object | .datatypes _, .data => .ok ()
  | .classes _, .data => (LoadFault.dataRangeOfClasses name).raise
  | .datatypes _, .object => (LoadFault.objectRangeOfDatatypes name).raise

/-- What a keyword that has to be there holds. -/
def below (keyword : String) (entries : List (Tree × Tree)) (body : List (String × Node)) :
    Loading Node :=
  (body.lookup keyword).elim (LoadFault.keyNotFound keyword (Tree.mapping entries).render).raise
    .ok

/-- A statement that declares a property of a kind. -/
def declareProperty (s : LoadSession) (kind : PropertyKind) (t : Tree) : Loading LoadSession := do
  let (name, inner) ← Shape.single t
  s.ensureNew name
  let entries ← Shape.declarationBody "property declaration" inner
  let body ← s.world.readKeywords entries
  let range ← (← below "Range" entries body).toRange
  let domain ← (← below "Domain" entries body).toDomain
  checkRange name kind range
  let characteristics ← (body.lookup "Characteristics").elim (.ok {}) Node.toCharacteristics
  let inverseOf ← (body.lookup "Inverse").mapM Node.toProperty
  let comments ← textsBelow "annotations" body
  let labels ← textsBelow "labels" body
  let (s, p) ← s.addProperty
    { name, kind, domain, range, characteristics, inverseOf, comments, labels }
  s.applyFacts p body

/-- A statement that declares the inverse of an object property. -/
def declareInverse (s : LoadSession) (t : Tree) : Loading LoadSession := do
  let (name, inner) ← Shape.single t
  s.ensureNew name
  let body ← s.world.readKeywords (← Shape.declarationBody "owl_inverse_property" inner)
  match body.lookup "Inverse" with
  | none => (LoadFault.missingInverse t.render).raise
  | some n =>
    let q ← n.toProperty
    let base := s.world.getProperty q
    if base.kind = .data then (LoadFault.inverseOfData base.name).raise
    else
      let (s, p) ← s.addProperty {
        name
        kind := .object
        domain := base.rangeClasses
        range := .classes base.domain
        characteristics := base.characteristics.inverted
        inverseOf := some q }
      s.applyFacts p body

/-! ### Axioms -/

/-- A statement that adds a restriction to an individual or a class. -/
def addRestriction (s : LoadSession) (t : Tree) : Loading LoadSession := do
  let entries ← Shape.asMapping "restriction" t
  let name ← Shape.asString "restriction `Subject`" (← Shape.required "Subject" entries)
  let body ← Shape.required "Body" entries
  let subject ← s.world.resolveName false name
  let r ← s.world.readRestriction body
  match subject.entity? with
  | some (.individual i) =>
    return { s with world := s.world.addIndividualAxiom i r.toExpression }
  | some (.class c) => return { s with world := s.world.addClassAxiom c r.toExpression }
  | _ => (LoadFault.badRestrictionSubject name).raise

/-- The individuals of a list of names; the name `__all__` stands for all that are declared. -/
def groupOf (s : LoadSession) (seen : List IndividualId) : List Tree → Loading (List IndividualId)
  | [] => .ok seen
  | item :: rest => do
    let name ← Shape.asString "different_individuals" item
    if name = "__all__" then return s.world.individualIds
    else s.groupOf (seen ++ [← s.individual name]) rest

/-- A statement that individuals are pairwise different. -/
def addDifferent (s : LoadSession) (t : Tree) : Loading LoadSession := do
  let group ← s.groupOf [] (Shape.listOf t)
  return { s with world := s.world.addDifferent group }

/-- A statement with a comment on the ontology. -/
def addAnnotation (s : LoadSession) (t : Tree) : Loading LoadSession := do
  let comment ← Shape.asString "annotation" t
  return { s with world := s.world.addComment comment }

end LoadSession

end Ontology
