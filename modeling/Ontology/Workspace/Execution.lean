import Ontology.Tree.Json
import Ontology.Workspace.Command
import Ontology.Workspace.Shell

/-!
# What commands do

## Main definitions

* `Surroundings` — the files, the input and the time that a command finds.
* `Outcome` — what a command leaves behind, and `CommandFault`, why it fails.
* `Invocation.run` — what a command does.
-/

namespace Ontology

/-- Why a command fails. -/
inductive CommandFault where
  | unreadableSettings (path : String)
  | badSettings (path : String)
  | unreadableQuery (path : String)
  | noQuery
  | notLoaded (path : String) (error : LoadError)
  | unwritable (path : String)
  | workspace (fault : WorkspaceFault)
  deriving DecidableEq, Repr

/-- The texts of a fault and of what caused it. -/
def CommandFault.texts : CommandFault → List String
  | .unreadableSettings path => ["Could not read config file " ++ path, "it cannot be read"]
  | .badSettings path => ["Invalid config file " ++ path, "it does not hold settings"]
  | .unreadableQuery path => ["Could not read query file " ++ path, "it cannot be read"]
  | .noQuery => ["Either --query or --file must be specified"]
  | .notLoaded path error => ("Could not load " ++ path) :: error.texts
  | .unwritable path => ["Could not write " ++ path, "it cannot be written"]
  | .workspace fault => fault.texts

/-- What is written about a fault: its text, and those of its causes further in. -/
def CommandFault.report (f : CommandFault) : String :=
  let indented (text : String) : String := "\n".intercalate ((text.splitOn "\n").map ("    " ++ ·))
  match f.texts with
  | [] => ""
  | [text] => "Error: " ++ text ++ "\n"
  | text :: causes =>
    "Error: " ++ text ++ "\n\nCaused by:\n" ++ String.join (causes.map (indented · ++ "\n"))

/-- The text of a fault with that of its causes. -/
def CommandFault.message (f : CommandFault) : String :=
  ": ".intercalate f.texts

/-- What a command finds. -/
structure Surroundings where
  folder : Folder := {}
  input : String := ""
  /-- The date and the time of day. -/
  time : String := ""
  deriving Repr, Inhabited

/-- What a command finds out. -/
inductive CommandResult where
  | data (t : Tree)
  /-- The rows of a query. -/
  | table (r : QueryResult)
  deriving Repr

/-- A result as data. -/
def CommandResult.tree : CommandResult → Tree
  | .data t => t
  | .table r => r.tree

/-- What a command leaves behind. -/
structure Outcome where
  succeeded : Bool := true
  message : String := ""
  result : Option CommandResult := none
  output : String := ""
  errors : String := ""
  folder : Folder
  deriving Repr, Inhabited

/-- A result in a style; `text` is the one for reading. -/
def OutputStyle.print (text : String) (data : Tree) : OutputStyle → String
  | .text => text
  | .json => data.render ++ "\n"
  | .prettyJson => data.pretty 0 ++ "\n"

/-- The version of the program with its settings; the names are in order. -/
def Settings.info (s : Settings) : Tree :=
  .object [
    ("authors", .string "gftdcojp"),
    ("config", s.toTree),
    ("description", .string
      "Command-line interface for yamlowl: convert YAML ontologies to OWL, reason and query"),
    ("formats", .sequence (Rdf.Format.all.map fun format => .string format.name)),
    ("name", .string "yamlowl-cli"),
    ("reasoner", .string "finite-model"),
    ("repository", .string "https://github.com/com-junkawasaki/yamlowl"),
    ("version", .string "0.1.0")]

namespace Surroundings

/-- The settings in a file, or the usual ones without a path. -/
def settings (s : Surroundings) : Option String → Except CommandFault Settings
  | none => .ok {}
  | some path =>
    match s.folder.read? path with
    | none => .error (.unreadableSettings path)
    | some text => (Settings.ofText? text).elim (.error (.badSettings path)) .ok

/-- Loads an ontology. -/
def load (s : Surroundings) (settings : Settings) (path : String) :
    Except CommandFault Workspace :=
  (Workspace.ofFile settings s.folder path).mapError (.notLoaded path)

/-- The text of a query that is given as a text or as a file. -/
def queryText (s : Surroundings) : Option String → Option String → Except CommandFault String
  | some text, _ => .ok text
  | none, some path => (s.folder.read? path).elim (.error (.unreadableQuery path)) .ok
  | none, none => .error .noQuery

/-- The comment in a written graph file about where it comes from. -/
def originComment (s : Surroundings) (path : String) : String :=
  "This file was automatically created by yamlowl on " ++ s.time ++ " from " ++ path ++ "."

/-- Writes an ontology as a graph file. -/
def convert (s : Surroundings) (settings : Settings) (input output : String) (force : Bool)
    (format : Rdf.Format) : Except CommandFault Outcome := do
  if s.folder.contains output && !force then
    return {
      succeeded := false
      message := "The output file " ++ output
        ++ " already exists. Use option \x60--force\x60 to overwrite it."
      folder := s.folder }
  else
    let w ← s.load settings input
    let w := { w with world := w.world.addComment (s.originComment input) }
    let text ← (w.graphText format).mapError .workspace
    match s.folder.write? output text with
    | none => .error (.unwritable output)
    | some folder =>
      return {
        message := "File written: " ++ output
        result := some (.data (.object [("output", .string output)]))
        folder }

/-- Reasons about an ontology. -/
def reason (s : Surroundings) (settings : Settings) (input : String) (style : OutputStyle)
    (debug : Bool) : Except CommandFault Outcome := do
  let w ← s.load settings input
  let options := { settings.inference with debug := settings.inference.debug || debug }
  let (w, report) ← (w.inferWith options).mapError .workspace
  let data := w.world.reportTree report
  return {
    message := toString report.inferredTypes.length ++ " types and "
      ++ toString report.inferredFacts.length ++ " facts inferred"
    result := some (.data data)
    output := style.print (w.world.reportText report) data
    folder := s.folder }

/-- Answers a query about an ontology, after reasoning about it if asked to. -/
def answer (s : Surroundings) (settings : Settings) (input text : String) (reasonFirst : Bool)
    (style : OutputStyle) : Except CommandFault Outcome := do
  let w ← s.load settings input
  let w ← if reasonFirst then (w.infer.mapError .workspace).map Prod.fst else .ok w
  let r ← (w.query text).mapError .workspace
  return {
    message := toString r.rows.length ++ " rows"
    result := some (.table r)
    output := style.print r.text r.tree
    folder := s.folder }

/-- Starts a dialogue about an ontology. -/
def shell (s : Surroundings) (settings : Settings) (input : String) :
    Except CommandFault Shell := do
  return { workspace := ← s.load settings input, folder := s.folder }

/-- What a command does under given settings. -/
def perform (s : Surroundings) (settings : Settings) : Command → Except CommandFault Outcome
  | .convert input output force format =>
    s.convert settings input (output.getD (Path.forOutput format input)) force format
  | .reason input style debug => s.reason settings input style debug
  | .query input text file reasonFirst style => do
    s.answer settings input (← s.queryText text file) reasonFirst style
  | .info =>
    .ok {
      result := some (.data settings.info)
      output := settings.info.pretty 0 ++ "\n"
      folder := s.folder }
  | .interactive input => do
    let d := (← s.shell settings input).dialogue (Text.lines s.input)
    return { output := d.output, errors := d.errors, folder := d.shell.folder }

end Surroundings

/-- What a command does; its settings are read first. -/
def Invocation.run (i : Invocation) (s : Surroundings) : Except CommandFault Outcome := do
  s.perform (← s.settings i.settings) i.command

end Ontology
