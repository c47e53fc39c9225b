import Ontology.Loading.Session
import Ontology.Rdf.Format

/-!
# Imports

An import reads a graph file and takes over its named classes.

## Main definitions

* `ImportSummary.ofTriples` — what is kept of a file.
* `LoadSession.addImport` — a statement that imports a file.
-/

namespace Ontology

/-- What is kept of an imported file. -/
structure ImportSummary where
  /-- The IRI that the file declares, if any. -/
  iri : Option String := none
  /-- The IRIs of the named classes, each once, in the order of the file. -/
  classes : List String := []
  deriving DecidableEq, Repr

namespace ImportSummary

/-- Takes note of one triple. -/
def note (s : ImportSummary) (t : Rdf.Triple) : ImportSummary :=
  match t.subject, t.object with
  | .iri subject, .resource (.iri object) =>
    if t.predicate ≠ Rdf.rdf.type then s
    else if object = Rdf.owl.owlClass then
      if subject ∈ s.classes then s else { s with classes := s.classes ++ [subject] }
    else if object = Rdf.owl.ontology then { s with iri := s.iri.or (some subject) }
    else s
  | _, _ => s

/-- What is kept of a list of triples. -/
def ofTriples (ts : List Rdf.Triple) : ImportSummary :=
  ts.foldl note {}

end ImportSummary

/-- A slash or a number sign. -/
def isIriEnd (c : Char) : Bool :=
  c = '#' || c = '/'

/-- The part of an IRI behind its last slash or number sign. -/
def localName (iri : String) : String :=
  String.ofList (iri.toList.reverse.takeWhile (!isIriEnd ·)).reverse

/-- An IRI without slashes and number signs at its end. -/
def trimIri (iri : String) : List Char :=
  (iri.toList.reverse.dropWhile isIriEnd).reverse

/-- Two IRIs that differ at most in their ends. -/
def sameIri (a b : String) : Bool :=
  trimIri a = trimIri b

namespace LoadSession

/-- The triples of a file. -/
def readGraph (s : LoadSession) (path : String) : Loading (List Rdf.Triple) :=
  match (Path.ending? path).bind Rdf.ImportFormat.ofEnding? with
  | none => (LoadFault.unknownFormat path).raise
  | some format =>
    match s.folder.read? path with
    | none => (LoadFault.unreadableFile path).raise
    | some text =>
      match format.read? text with
      | none => (LoadFault.unreadableImport path ("not a graph in " ++ format.name)).raise
      | some ts => .ok ts

/-- Adds a row to a table that is in the order of its keys. -/
def insertSorted (key : String) (c : ClassId) :
    List (String × ClassId) → List (String × ClassId)
  | [] => [(key, c)]
  | (k, d) :: rest =>
    if key < k then (key, c) :: (k, d) :: rest else (k, d) :: insertSorted key c rest

/-- Adds the classes of a file that have a local name, the first one for each name. -/
def addImportedClasses (s : LoadSession) (qualifier : String) :
    List (String × ClassId) → List String → Loading (LoadSession × List (String × ClassId))
  | found, [] => .ok (s, found)
  | found, iri :: rest => do
    let name := localName iri
    if name.isEmpty ∨ (found.lookup name).isSome then s.addImportedClasses qualifier found rest
    else
      let (world, c) ← Loading.ofNames (s.world.addImportedClass (qualifier ++ name) name iri)
      { s with world }.addImportedClasses qualifier (insertSorted name c found) rest

/-- What names of the imported classes start with, if anything. -/
def qualifierOf (entries : List (Tree × Tree)) : Option String :=
  match (Tree.lookup? entries "ns").bind Tree.text? with
  | none | some "" => none
  | some name => some (if name.endsWith ":" then name else name ++ ":")

/-- A statement that imports a file. -/
def addImport (s : LoadSession) (t : Tree) : Loading LoadSession := do
  let entries ← Shape.asMapping "import" t
  let iri ← match (← Shape.required "iri" entries).text? with
    | some iri => pure iri
    | none => (LoadFault.importIriNotString t.render).raise
  let written ← match (Tree.lookup? entries "localpath").bind Tree.text? with
    | some path => pure path
    | none => (LoadFault.remoteImport iri).raise
  if written.endsWith ".yml" ∨ written.endsWith ".yaml" then
    (LoadFault.yamlImport written).raise
  else
    let path := Path.join s.base written
    let summary := ImportSummary.ofTriples (← s.readGraph path)
    if let some declared := summary.iri then
      if s.settings.strictImportIri && !sameIri declared iri then
        (LoadFault.importMismatch declared iri).raise
    let qualifier := qualifierOf entries
    let (s, classes) ← s.addImportedClasses (qualifier.getD "") [] summary.classes
    return { s with world := s.world.addImport { iri, qualifier, source := path, classes } }

end LoadSession

end Ontology
