import Ontology.Rdf.Format
import Ontology.Workspace.Arguments

/-!
# Commands

## Main definitions

* `Command` — what the program can be asked to do.
* `Invocation.ofWords?` — the command that words ask for, with the path of the settings.
* `Path.forOutput` — where a graph file is written if no path is given.
-/

namespace Ontology

/-- How results are written. -/
inductive OutputStyle where
  | text
  | json
  | prettyJson
  deriving DecidableEq, Repr

namespace OutputStyle

/-- All styles with their names. -/
def named : List (String × OutputStyle) :=
  [("text", .text), ("json", .json), ("json-pretty", .prettyJson)]

/-- The style of a name. -/
def ofName? (name : String) : Option OutputStyle :=
  named.lookup name

end OutputStyle

/-- What the program can be asked to do; `input` is the path of an ontology. -/
inductive Command where
  /-- Writes an ontology as a graph file; `force` replaces one that exists. -/
  | convert (input : String) (output : Option String) (force : Bool) (format : Rdf.Format)
  | reason (input : String) (style : OutputStyle) (debug : Bool)
  /-- Answers a query that is given as a text or as a file. -/
  | query (input : String) (text file : Option String) (reason : Bool) (style : OutputStyle)
  /-- Shows the version and the settings. -/
  | info
  /-- Starts a shell. -/
  | interactive (input : String)
  deriving DecidableEq, Repr

/-- A command with the path of the settings. -/
structure Invocation where
  settings : Option String := none
  command : Command
  deriving DecidableEq, Repr

/-! ### Options -/

namespace OptionSpec

/-- The path of the settings, which may stand before and behind the name of a command. -/
def settings : OptionSpec := { long := "config", short := some 'c', value := .path }

/-- The format of a graph file. -/
def format : OptionSpec :=
  { long := "format", value := .oneOf (Rdf.Format.all.map Rdf.Format.name) }

/-- The style of results. -/
def style : OptionSpec := { long := "format", value := .oneOf (OutputStyle.named.map Prod.fst) }

end OptionSpec

namespace Command

/-- The options of a command, by its name. -/
def options? : String → Option (List OptionSpec)
  | "convert" => some [
    { long := "output", short := some 'o', value := .path },
    { long := "force", short := some 'f' }, .format]
  | "reason" => some [.style, { long := "debug" }]
  | "query" => some [
    { long := "query", short := some 'q', value := .text }, { long := "file", value := .path },
    { long := "reason", short := some 'r' }, .style]
  | "info" => some []
  | "interactive" => some []
  | _ => none

/-- The style that arguments ask for. -/
def styleOf (a : Arguments) : OutputStyle :=
  ((a.value? "format").bind OutputStyle.ofName?).getD .text

/-- The command of a name and its arguments. -/
def ofArguments? (name : String) (a : Arguments) : Option Command :=
  match name, a.operands with
  | "info", [] => some .info
  | name, [input] =>
    if input.isEmpty then none
    else
      match name with
      | "convert" =>
        let format := ((a.value? "format").bind Rdf.Format.ofName?).getD .rdfXml
        some (.convert input (a.value? "output") (a.has "force") format)
      | "reason" => some (.reason input (styleOf a) (a.has "debug"))
      | "query" =>
        if a.has "query" ∧ a.has "file" then none
        else some (.query input (a.value? "query") (a.value? "file") (a.has "reason") (styleOf a))
      | "interactive" => some (.interactive input)
      | _ => none
  | _, _ => none

end Command

namespace Invocation

/-- The command that words ask for; settings named behind the command win. -/
def ofWords? (words : List String) : Option Invocation := do
  let (before, name, rest) ← Arguments.split? [.settings] {} words
  let specs ← Command.options? name
  let a ← Arguments.read? (.settings :: specs) rest
  let command ← Command.ofArguments? name a
  return { settings := (a.value? "config").or (before.value? "config"), command }

end Invocation

/-! ### Paths -/

namespace Path

/-- A path without an ending. -/
def without? (ending path : String) : Option String :=
  if path.endsWith ending then
    some (String.ofList (path.toList.take (path.length - ending.length)))
  else none

/-- Where a graph file is written if no path is given: the ending of an ontology document is
replaced, and any other path is made longer. -/
def forOutput (format : Rdf.Format) (input : String) : String :=
  let stem := (without? ".owl.yml" input <|> without? ".owl.yaml" input).getD input
  stem ++ "." ++ format.extension

end Path

namespace Command

/-- The path of the ontology. -/
def input? : Command → Option String
  | .convert input .. | .reason input .. | .query input .. | .interactive input => some input
  | .info => none

/-- The path of the graph file that is written. -/
def output? : Command → Option String
  | .convert input output _ format => some (output.getD (Path.forOutput format input))
  | _ => none

end Command

end Ontology
