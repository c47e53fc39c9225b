import Ontology.Workspace.Sources
import Std.Time.Format
import Std.Time.Zoned

/-!
# The program

Looks at the files that a command needs, runs it, and carries out what it leaves behind.
-/

namespace Ontology

/-- What is written if the words of a command make no sense. -/
def usage : String :=
  "\n".intercalate [
    "Usage: yamlowl [--config <path>] <command>",
    "",
    "Commands:",
    "  convert <input> [--output <path>] [--force] [--format rdfxml|turtle|ntriples]",
    "  reason <input> [--format text|json|json-pretty] [--debug]",
    "  query <input> (--query <text> | --file <path>) [--reason] [--format text|json|json-pretty]",
    "  info",
    "  interactive <input>",
    ""]

/-! ### Looking at files -/

/-- The code of the failure to read a folder as if it were a file. -/
def folderCode : UInt32 := 21

/-- Takes over what lies at a path and on the way to it. -/
def Folder.look (asText : ByteArray → Option String) (f : Folder) (path : String) : IO Folder :=
  (Path.stages path).foldlM
    (fun f (stage : String) => do
      match ← (IO.FS.readBinFile stage).toBaseIO with
      | .ok bytes => return (asText bytes).elim f (f.withFile stage)
      | .error (.inappropriateType _ code _) =>
        return if code = folderCode then f.withFolder stage else f
      | .error _ => return f)
    f

/-- Takes over a file that is read. -/
def Folder.lookInto : Folder → String → IO Folder :=
  Folder.look String.fromUTF8?

/-- Takes note of a file that is written. -/
def Folder.lookFor : Folder → String → IO Folder :=
  Folder.look fun _ => some ""

/-- The files that a command needs. -/
def Invocation.lookAround (i : Invocation) : IO Folder := do
  let f ← i.command.output?.toList.foldlM Folder.lookFor {}
  let f ← i.inputs.foldlM Folder.lookInto f
  (i.imports f).foldlM Folder.lookInto f

/-- Writes the files that a command has changed. -/
def Folder.carryOut (f earlier : Folder) : IO Unit :=
  (f.changedSince earlier).forM fun (path, text) => IO.FS.writeFile path text

/-! ### Running -/

/-- Writes a text at once. -/
def write (text : String) : IO Unit := do
  IO.print text
  (← IO.getStdout).flush

/-- Answers lines until one of them, or their end, ends the dialogue. -/
partial def Shell.converse (s : Shell) : IO Unit := do
  write Shell.prompt
  let text ← (← IO.getStdin).getLine
  if let line :: _ := Text.lines text then
    let folder ← (Shell.output? line).toList.foldlM Folder.lookFor s.folder
    match { s with folder }.answer line with
    | .error fault =>
      IO.eprint (Shell.complaint fault)
      s.converse
    | .ok (next, reply) =>
      next.folder.carryOut folder
      write reply.text
      if reply ≠ .quit then next.converse

/-- Runs a command; a dialogue takes place line by line. -/
def Invocation.execute (i : Invocation) (s : Surroundings) :
    ExceptT CommandFault IO UInt32 := do
  match i.command with
  | .interactive input =>
    let shell ← s.shell (← s.settings i.settings) input
    write shell.greeting
    shell.converse
    return 0
  | _ =>
    let o ← i.run s
    o.folder.carryOut s.folder
    write o.output
    IO.eprint (if o.message.isEmpty then "" else o.message ++ "\n")
    return if o.succeeded then 0 else 1

/-- The date and the time of day. -/
def timeText : IO String := do
  return (← Std.Time.PlainDateTime.now).format "uuuu-MM-dd HH:mm:ss"

end Ontology

open Ontology in
/-- Runs the command that the words ask for. -/
def main (words : List String) : IO UInt32 := do
  match Invocation.ofWords? words with
  | none =>
    IO.eprint usage
    return 2
  | some i =>
    match ← i.execute { folder := ← i.lookAround, time := ← timeText } with
    | .ok code => return code
    | .error fault =>
      IO.eprint fault.report
      return 1
