import Ontology.Workspace.Execution
import Ontology.Yaml.Document

/-!
# The files of a command

What has to be known of the files outside before a command can be run.

## Main definitions

* `Invocation.inputs`, `Command.output?` — the paths that a command names.
* `Invocation.imports` — the paths that its document names.
* `Shell.output?` — the path that a line names.
-/

namespace Ontology

namespace Invocation

/-- The paths of the files that a command reads. -/
def inputs (i : Invocation) : List String :=
  let question := match i.command with
    | .query _ _ file _ _ => file.toList
    | _ => []
  i.settings.toList ++ question ++ i.command.input?.toList

/-- The paths of the files that the ontology of a command imports. -/
def imports (i : Invocation) (f : Folder) : List String :=
  (do
    let path ← i.command.input?
    let text ← f.read? path
    let document ← (Yaml.document text).toOption
    return World.importPaths (Path.parent path) document).getD []

end Invocation

/-- The path of the file that a line of a dialogue writes. -/
def Shell.output? (line : String) : Option String :=
  match ShellCommand.ofLine line with
  | .ok (some (.save path _)) => path
  | _ => none

end Ontology
