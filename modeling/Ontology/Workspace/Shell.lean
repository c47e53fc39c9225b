import Ontology.Text.Words
import Ontology.Workspace
import Ontology.Workspace.Report

/-!
# The shell

A dialogue about one ontology: each line holds a command, and is answered by a text.

## Main definitions

* `ShellCommand`, `ShellCommand.ofLine` — the commands, and the one that a line holds.
* `World.showEntity`, `World.list` — entities in words.
* `Shell.answer` — what a line does.
* `Shell.dialogue` — what is written while several lines are answered.
-/

namespace Ontology

/-! ### Commands -/

/-- The kinds of entities that can be listed. -/
inductive Listing where
  | classes
  | properties
  | individuals
  | rules
  deriving DecidableEq, Repr

/-- A command of the shell. -/
inductive ShellCommand where
  /-- Ends the dialogue. -/
  | quit
  | help
  | query (text : String)
  | reason
  /-- Shows what a name stands for. -/
  | describe (name : String)
  | list (what : Listing)
  /-- Writes a graph file, or shows its text if there is no path. -/
  | save (path : Option String) (format : Rdf.Format)
  deriving DecidableEq, Repr

/-- Why a line has no answer. -/
inductive ShellFault where
  | unclosedQuote
  | unknownCommand (word : String)
  /-- A command lacks what has to follow it. -/
  | incomplete (usage : String)
  | unknownListing (word : String)
  | unknownFormat (word : String)
  | unknownName (name : String)
  | unwritable (path : String)
  | workspace (fault : WorkspaceFault)
  deriving DecidableEq, Repr

namespace ShellFault

/-- The texts of a fault and of what caused it. -/
def texts : ShellFault → List String
  | .unclosedQuote => ["missing closing quote"]
  | .unknownCommand word => ["unknown command \x60" ++ word ++ "\x60 (try 'help')"]
  | .incomplete usage => ["usage: " ++ usage]
  | .unknownListing word =>
    ["cannot list \x60" ++ word ++ "\x60 (classes, properties, individuals, rules)"]
  | .unknownFormat word => ["unknown format \x60" ++ word ++ "\x60"]
  | .unknownName name => ["unknown entity name: " ++ name]
  | .unwritable path => ["cannot write " ++ path]
  | .workspace fault => fault.texts

/-- The text of a fault with that of its causes. -/
def message (f : ShellFault) : String :=
  ": ".intercalate f.texts

end ShellFault

/-- The kind of entities of a word. -/
def Listing.ofWord? : String → Option Listing
  | "classes" => some .classes
  | "properties" => some .properties
  | "individuals" => some .individuals
  | "rules" => some .rules
  | _ => none

namespace ShellCommand

/-- The command of a word and those behind it; further words are passed over. -/
def ofWords (word : String) (others : List String) : Except ShellFault ShellCommand :=
  match word, others with
  | "quit", _ | "exit", _ | "q", _ => .ok .quit
  | "help", _ | "h", _ => .ok .help
  | "query", [] => .error (.incomplete "query <SELECT ...>")
  | "query", words => .ok (.query (" ".intercalate words))
  | "reason", _ => .ok .reason
  | "show", [] => .error (.incomplete "show <name>")
  | "show", name :: _ => .ok (.describe name)
  | "list", [] => .ok (.list .individuals)
  | "list", what :: _ =>
    (Listing.ofWord? what).elim (.error (.unknownListing what)) (.ok <| .list ·)
  | "export", [] => .ok (.save none .rdfXml)
  | "export", [path] => .ok (.save (some path) .rdfXml)
  | "export", path :: format :: _ =>
    (Rdf.Format.ofName? format).elim (.error (.unknownFormat format)) (.ok <| .save (some path) ·)
  | word, _ => .error (.unknownCommand word)

/-- The command of a line, if there is one on it. -/
def ofLine (line : String) : Except ShellFault (Option ShellCommand) :=
  match Text.words? (Text.trimmed line) with
  | none => .error .unclosedQuote
  | some [] => .ok none
  | some (word :: others) => (ofWords word others).map some

/-- The commands in words. -/
def overview : String :=
  "\n".intercalate [
    "Available commands:",
    "  query <SELECT ...>                 Evaluate a SPARQL query (P: is the ontology IRI)",
    "  reason                             Run the reasoner and show what it inferred",
    "  show <name>                        Describe a class, property or individual",
    "  list classes|properties|individuals|rules",
    "  export [path] [rdfxml|turtle|ntriples]",
    "  help                               Show this help",
    "  quit                               Exit interactive mode",
    ""]

end ShellCommand

/-! ### Entities in words -/

namespace World

/-- Lines that start with a word. -/
def wordLines (word : String) (texts : List String) : List String :=
  texts.map fun text => "  " ++ word ++ " " ++ text

/-- An individual with its types and values. -/
def showIndividual (w : World) (i : IndividualId) : List String :=
  let d := w.getIndividual i
  let hasValues (p : PropertyId) : Bool := (d.facts.rows ++ d.inferredFacts.rows).any (·.1 = p)
  ("Individual " ++ d.name)
    :: wordLines "a" (d.isA.map w.describe)
    ++ wordLines "a" (d.inferredTypes.map fun c => (w.getClass c).name ++ " (inferred)")
    ++ (w.propertyIds.filter hasValues).map fun p =>
      "  " ++ (w.getProperty p).name ++ " " ++ ", ".intercalate ((w.values i p).map w.describeValue)

/-- A class with its axioms and labels. -/
def showClass (w : World) (c : ClassId) : List String :=
  let d := w.getClass c
  ("Class " ++ d.name)
    :: wordLines "SubClassOf" (d.isA.map w.describe)
    ++ wordLines "EquivalentTo" (d.equivalentTo.map w.describe)
    ++ wordLines "label" (d.labels.map Text.quote)

/-- A property with its domain, its range and what else is known of it. -/
def showProperty (w : World) (p : PropertyId) : List String :=
  let d := w.getProperty p
  let range := match d.range with
    | .classes classes => classes.map w.describe
    | .datatypes datatypes => datatypes.map Datatype.name
  let characteristics := d.characteristics.toList.map Characteristic.name
  (d.kind.name ++ "Property " ++ d.name)
    :: wordLines "Domain" [", ".intercalate (d.domain.map w.describe)]
    ++ wordLines "Range" [", ".intercalate range]
    ++ (if characteristics.isEmpty then []
      else wordLines "Characteristics" [", ".intercalate characteristics])
    ++ wordLines "Inverse" (d.inverseOf.toList.map fun q => (w.getProperty q).name)

/-- An entity in words. -/
def showEntity (w : World) : Entity → List String
  | .individual i => w.showIndividual i
  | .class c => w.showClass c
  | .property p => w.showProperty p
  | e => [w.entityName e]

/-- The names of all entities of a kind. -/
def list (w : World) : Listing → List String
  | .classes => w.classes.toList.map Class.name
  | .properties => w.properties.toList.map Property.name
  | .individuals => w.individuals.toList.map Individual.name
  | .rules => w.rules.toList.map Rule.name

end World

/-! ### The dialogue -/

/-- A dialogue about an ontology, with the files around it. -/
structure Shell where
  workspace : Workspace
  folder : Folder := {}
  deriving Repr, Inhabited

/-- What a line is answered with. -/
inductive Reply where
  | plain (text : String)
  /-- The rows of a query. -/
  | table (r : QueryResult)
  /-- The line ends the dialogue. -/
  | quit
  deriving DecidableEq, Repr

/-- What is written as an answer. -/
def Reply.text : Reply → String
  | .plain text => text
  | .table r => r.text
  | .quit => "Goodbye!\n"

namespace Shell

/-- Lines with their ends. -/
def unlines (lines : List String) : String :=
  String.join (lines.map (· ++ "\n"))

/-- What a command does. -/
def perform (s : Shell) : ShellCommand → Except ShellFault (Shell × Reply)
  | .quit => .ok (s, .quit)
  | .help => .ok (s, .plain ShellCommand.overview)
  | .query text => do
    let r ← (s.workspace.query text).mapError .workspace
    return (s, .table r)
  | .reason => do
    let (workspace, report) ← s.workspace.infer.mapError .workspace
    return ({ s with workspace }, .plain (workspace.world.reportText report))
  | .describe name =>
    match s.workspace.world.lookup? name with
    | some e => .ok (s, .plain (unlines (s.workspace.world.showEntity e)))
    | none => .error (.unknownName name)
  | .list what => .ok (s, .plain (unlines (s.workspace.world.list what)))
  | .save path format => do
    let text ← (s.workspace.graphText format).mapError .workspace
    match path with
    | none => return (s, .plain text)
    | some path =>
      match s.folder.write? path text with
      | some folder => return ({ s with folder }, .plain ("File written: " ++ path ++ "\n"))
      | none => .error (.unwritable path)

/-- What a line does; an empty one is answered with nothing. -/
def answer (s : Shell) (line : String) : Except ShellFault (Shell × Reply) := do
  match ← ShellCommand.ofLine line with
  | some command => s.perform command
  | none => return (s, .plain "")

/-- What is written before the first line. -/
def greeting (s : Shell) : String :=
  unlines [
    "yamlowl interactive mode: " ++ s.workspace.summary,
    "Type 'help' for available commands, 'quit' to exit",
    String.ofList (List.replicate 50 '=')]

/-- What is written before each line is read. -/
def prompt : String := "yamlowl> "

/-- What is written about a line without an answer. -/
def complaint (f : ShellFault) : String :=
  "Error: " ++ f.message ++ "\n"

end Shell

/-- A dialogue after some lines, and what has been written: the answers and the complaints. -/
structure Dialogue where
  shell : Shell
  output : String := ""
  errors : String := ""
  deriving Repr, Inhabited

/-- What is written while lines are answered, up to the one that ends the dialogue. -/
def Dialogue.run (d : Dialogue) : List String → Dialogue
  | [] => { d with output := d.output ++ Shell.prompt }
  | line :: rest =>
    let output := d.output ++ Shell.prompt
    match d.shell.answer line with
    | .ok (shell, reply) =>
      let d := { d with shell, output := output ++ reply.text }
      if reply = .quit then d else d.run rest
    | .error fault =>
      Dialogue.run { d with output, errors := d.errors ++ Shell.complaint fault } rest

/-- The whole dialogue. -/
def Shell.dialogue (s : Shell) (lines : List String) : Dialogue :=
  Dialogue.run { shell := s, output := s.greeting } lines

end Ontology
