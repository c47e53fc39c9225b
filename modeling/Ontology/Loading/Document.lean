import Ontology.Loading.Declaration
import Ontology.Loading.Import
import Ontology.Rule.Reader
import Ontology.Yaml.Document

/-!
# Documents

## Main definitions

* `Statement` — the kinds of statements, `Statement.keyword` — their keywords.
* `LoadSession.perform` — what a statement does.
* `World.importPaths` — the files that a document needs.
* `World.load` — the ontology of a document; the first failure ends it.
* `World.loadText`, `World.loadFile` — the same from a text and from a file.
-/

namespace Ontology

/-- The kinds of statements, besides the one that gives the IRI. -/
inductive Statement where
  | importFile
  | comments
  | individual
  | individuals
  | oneClass
  | classes
  | objectProperty
  | dataProperty
  | inverseProperty
  | propertyFacts
  | relationFacts
  | restriction
  | rule
  | differentIndividuals
  deriving DecidableEq, Repr

namespace Statement

/-- All kinds of statements. -/
def all : List Statement :=
  [.importFile, .comments, .individual, .individuals, .oneClass, .classes, .objectProperty,
    .dataProperty, .inverseProperty, .propertyFacts, .relationFacts, .restriction, .rule,
    .differentIndividuals]

/-- The keyword of a statement. -/
def keyword : Statement → String
  | .importFile => "import"
  | .comments => "annotation"
  | .individual => "owl_individual"
  | .individuals => "owl_multiple_individuals"
  | .oneClass => "owl_class"
  | .classes => "multiple_owl_classes"
  | .objectProperty => "owl_object_property"
  | .dataProperty => "owl_data_property"
  | .inverseProperty => "owl_inverse_property"
  | .propertyFacts => "property_facts"
  | .relationFacts => "relation_concept_facts"
  | .restriction => "restriction"
  | .rule => "swrl_rule"
  | .differentIndividuals => "different_individuals"

/-- The kind of statement of a keyword. -/
def ofKeyword? (keyword : String) : Option Statement :=
  all.find? (·.keyword = keyword)

end Statement

namespace LoadSession

/-- A statement with a rule. -/
def addRule (s : LoadSession) (t : Tree) : Loading LoadSession := do
  let entries ← Shape.asMapping "swrl_rule" t
  let name ← Shape.asString "swrl_rule `name`" (← Shape.required "name" entries)
  let source ← Shape.asString "swrl_rule `src`" (← Shape.required "src" entries)
  let label := (Tree.lookup? entries "label").bind Tree.text?
  s.ensureNew name
  let r ← s.world.readRule name source label
  let (world, _) ← Loading.ofNames (s.world.addRule r)
  return { s with world }

/-- What a statement does. -/
def perform (s : LoadSession) : Statement → Tree → Loading LoadSession
  | .importFile => s.addImport
  | .comments => s.addAnnotation
  | .individual => s.declareIndividual
  | .individuals => s.declareIndividuals
  | .oneClass => s.declareClass
  | .classes => s.declareClasses
  | .objectProperty => s.declareProperty .object
  | .dataProperty => s.declareProperty .data
  | .inverseProperty => s.declareInverse
  | .propertyFacts => s.propertyFacts
  | .relationFacts => s.relationFacts
  | .restriction => s.addRestriction
  | .rule => s.addRule
  | .differentIndividuals => s.addDifferent

/-- Processes a statement of a keyword; a failure is reported with the body. -/
def statement (s : LoadSession) (keyword : String) (body : Tree) : Loading LoadSession :=
  if keyword = "iri" then .ok s
  else
    match Statement.ofKeyword? keyword with
    | none =>
      (LoadFault.keyNotFound keyword (", ".intercalate (Statement.all.map Statement.keyword))).raise
    | some kind =>
      (s.perform kind body).mapError (·.within (.statement body.render))

/-- Processes statements in their order. -/
def load (s : LoadSession) (statements : List (String × Tree)) : Loading LoadSession :=
  statements.foldlM (fun s (keyword, body) => s.statement keyword body) s

end LoadSession

namespace World

/-- The paths of the files that a document imports. -/
def importPaths (base : String) (document : Tree) : List String :=
  match Shape.statements document with
  | .error _ => []
  | .ok statements =>
    statements.filterMap fun (keyword, body) => do
      let .mapping entries := body | none
      let path ← (Tree.lookup? entries "localpath").bind Tree.text?
      if keyword = Statement.importFile.keyword then some (Path.join base path) else none

/-- The ontology of a document. -/
def load (settings : LoadSettings) (folder : Folder) (base : String) (document : Tree) :
    Loading World := do
  let statements ← Shape.statements document
  let iri := (Shape.baseIri? statements).getD settings.defaultIri
  let start : LoadSession := { world := { iri }, settings, folder, base }
  return (← start.load statements).world

/-- The ontology of a text. -/
def loadText (settings : LoadSettings) (folder : Folder) (base text : String) : Loading World :=
  match Yaml.document text with
  | .ok document => load settings folder base document
  | .error fault => (LoadFault.yaml fault).raise

/-- The ontology of a file. -/
def loadFile (settings : LoadSettings) (folder : Folder) (path : String) : Loading World :=
  match folder.read? path with
  | some text => loadText settings folder (Path.parent path) text
  | none => (LoadFault.unreadableFile path).raise

end World

end Ontology
