import Ontology.Loading.Document
import Ontology.Query.Answer
import Ontology.Reasoning.FiniteModel
import Ontology.Workspace.Settings

/-!
# Working on an ontology

## Main definitions

* `Workspace` — an ontology that has been loaded, with its settings.
* `Workspace.infer` — reasons and keeps what was inferred.
* `Workspace.query`, `Workspace.ask` — answers to the text of a query.
* `WorkspaceFault` — why one of these fails.
-/

namespace Ontology

/-- Why work on an ontology fails. -/
inductive WorkspaceFault where
  | load (error : LoadError)
  /-- Reasoning found a contradiction, given in words. -/
  | inconsistent (problem : String)
  | query (fault : QueryFault)
  /-- Another number of variables than one is asked for. -/
  | notOneVariable (count : Nat)
  /-- The graph has a predicate that files of the format cannot hold. -/
  | reservedPredicate
  deriving DecidableEq, Repr

namespace WorkspaceFault

/-- The texts of a fault and of what caused it. -/
def texts : WorkspaceFault → List String
  | .load error => error.texts
  | .inconsistent problem => ["Reasoner failed: " ++ problem, problem]
  | .query fault => [fault.message]
  | .notOneVariable count =>
    ["Query must select exactly one variable, found " ++ toString count]
  | .reservedPredicate =>
    let problem := "RDF/XML reserved syntax term is used as a predicate"
    ["I/O error: " ++ problem, problem]

/-- The text of a fault alone. -/
def message (f : WorkspaceFault) : String :=
  f.texts.headD ""

end WorkspaceFault

/-- An ontology that has been loaded, with its settings. -/
structure Workspace where
  world : World
  settings : Settings := {}
  deriving Repr, Inhabited

namespace Workspace

/-- The ontology of a text; the paths of its imports start from the folder `base`. -/
def ofText (settings : Settings) (folder : Folder) (base text : String) : Loading Workspace := do
  return { world := ← World.loadText settings.loading folder base text, settings }

/-- The ontology of a file. -/
def ofFile (settings : Settings) (folder : Folder) (path : String) : Loading Workspace := do
  return { world := ← World.loadFile settings.loading folder path, settings }

/-- The ontology with its size. -/
def summary (w : Workspace) : String :=
  Rdf.bracketed w.world.iri ++ " (" ++ toString w.world.classes.size ++ " classes, "
    ++ toString w.world.properties.size ++ " properties, " ++ toString w.world.individuals.size
    ++ " individuals, " ++ toString w.world.rules.size ++ " rules)"

/-- Reasons with other options than the settings give, and keeps what was inferred. -/
def inferWith (w : Workspace) (options : InferenceOptions) :
    Except WorkspaceFault (Workspace × InferenceReport) :=
  match w.world.infer options with
  | .ok report => .ok ({ w with world := w.world.applyInference report }, report)
  | .error e => .error (.inconsistent (e.message w.world))

/-- Reasons and keeps what was inferred. -/
def infer (w : Workspace) : Except WorkspaceFault (Workspace × InferenceReport) :=
  w.inferWith w.settings.inference

/-- The rows of the text of a query. -/
def query (w : Workspace) (text : String) : Except WorkspaceFault QueryResult := do
  let q ← (SelectQuery.ofText w.world.querySpaces text).mapError .query
  (w.world.select q).mapError .query

/-- The answers to the text of a query for one variable. -/
def ask (w : Workspace) (text : String) : Except WorkspaceFault (List Answer) := do
  let r ← w.query text
  if r.columns.length = 1 then return w.world.answers r
  else .error (.notOneVariable r.columns.length)

/-- The text of a graph file with what is stated and inferred. -/
def graphText (w : Workspace) (format : Rdf.Format) : Except WorkspaceFault String :=
  (format.write? (w.world.toGraph true)).elim (.error .reservedPredicate) .ok

end Workspace

end Ontology
