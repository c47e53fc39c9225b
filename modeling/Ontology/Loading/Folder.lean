/-!
# Files

## Main definitions

* `Folder` — the texts of files by their places, seen from the current folder.
* `Folder.read?`, `Folder.write?` — a file is found, or replaced.
* `Path.join`, `Path.parent`, `Path.ending?` — paths as texts.
-/

namespace Ontology

namespace Path

/-- The parts of a path between slashes. -/
def parts (path : String) : List String :=
  (path.toList.splitOn '/').map String.ofList

/-- The parts of a path that say something; empty ones and single points are left out. -/
def steps (path : String) : List String :=
  (parts path).filter fun step => step ≠ "" ∧ step ≠ "."

/-- The path does not start from the current folder. -/
def isAbsolute (path : String) : Bool :=
  path.startsWith "/"

/-- A path seen from a folder. -/
def join (folder path : String) : String :=
  if isAbsolute path ∨ folder.isEmpty then path
  else if folder.endsWith "/" then folder ++ path
  else folder ++ "/" ++ path

/-- What a path starts with: the root, a point for the current folder, or nothing. -/
def front (path : String) : String :=
  if isAbsolute path then "/" else if path = "." ∨ path.startsWith "./" then "." else ""

/-- The parts of a path without those at its end that say nothing. -/
def trimSteps (steps : List String) : List String :=
  (steps.reverse.dropWhile fun step => step = "" ∨ step = ".").reverse

/-- The folder that a path lies in. -/
def parent (path : String) : String :=
  let body := (path.drop (front path).length).toString
  front path ++ "/".intercalate (trimSteps (trimSteps (parts body)).dropLast)

/-- The paths of the folders on the way to a path, and the path itself. -/
def stages (path : String) : List String :=
  let steps := parts path
  (List.range steps.length).map fun n =>
    if n = 0 ∧ isAbsolute path then "/" else "/".intercalate (steps.take (n + 1))

/-- What follows the last point of a file name that has something before it. -/
def ending? (path : String) : Option String := do
  let name ← (steps path).getLast?
  let reversed := name.toList.reverse
  let ending := reversed.takeWhile (· ≠ '.')
  let stem := (reversed.drop ending.length).tail
  if name = ".." ∨ stem.isEmpty ∨ ending.length = reversed.length then none
  else some (String.ofList ending.reverse)

end Path

/-- Where a file lies: the names of the folders on the way from the current one and that of the
file.  Folders above the current one are written `..`, and the way from the root starts with `/`. -/
abbrev Location := List String

namespace Location

/-- Where a path starts. -/
def start (path : String) : Location :=
  if Path.isAbsolute path then ["/"] else []

/-- A step further; `..` leads back, above the current folder as well. -/
def step (l : Location) (name : String) : Location :=
  if name = "" ∨ name = "." then l
  else if name = ".." then
    if l = ["/"] then l
    else if l.getLast?.all (· = "..") then l ++ [".."]
    else l.dropLast
  else l ++ [name]

/-- Where a path leads if all folders on the way exist. -/
def ofPath (path : String) : Location :=
  (Path.parts path).foldl step (start path)

/-- A path that leads to a place. -/
def path : Location → String
  | "/" :: names => "/" ++ "/".intercalate names
  | names => "/".intercalate names

/-- The folder exists in any case: it is the current one, or lies above it, or is the root. -/
def isGiven (l : Location) : Bool :=
  l.all (· = "..") || l = ["/"]

end Location

/-- The texts of files by their places, seen from the current folder. -/
structure Folder where
  files : List (Location × String) := []
  /-- Folders that exist besides those on the way to files. -/
  folders : List Location := []
  deriving Repr, Inhabited

namespace Folder

/-- The files of paths and texts. -/
def ofList (files : List (String × String)) : Folder :=
  { files := files.map fun (path, text) => (Location.ofPath path, text) }

/-- There is a folder at a place. -/
def isFolder (f : Folder) (l : Location) : Bool :=
  l.isGiven || f.folders.contains l || f.files.any fun (file, _) =>
    l.isPrefixOf file && l.length < file.length

/-- Where the parts of a path lead from a place, if all folders on the way exist. -/
def follow? (f : Folder) (l : Location) : List String → Option Location
  | [] => some l
  | name :: rest => if f.isFolder l then f.follow? (l.step name) rest else none

/-- Where a path leads. -/
def resolve? (f : Folder) (path : String) : Option Location :=
  if path.isEmpty ∨ path.toList.contains '\x00' then none
  else f.follow? (Location.start path) (Path.parts path)

/-- The text of a file. -/
def read? (f : Folder) (path : String) : Option String := do
  f.files.lookup (← f.resolve? path)

/-- A file or a folder exists. -/
def contains (f : Folder) (path : String) : Bool :=
  (f.resolve? path).any fun l => f.isFolder l || (f.files.lookup l).isSome

/-- Replaces a file or adds one to a folder that exists. -/
def write? (f : Folder) (path text : String) : Option Folder := do
  let l ← f.resolve? path
  if f.isFolder l then none
  else some { f with files := (l, text) :: f.files.filter (·.1 ≠ l) }

/-- Takes over the text of a file. -/
def withFile (f : Folder) (path text : String) : Folder :=
  let l := Location.ofPath path
  { f with files := (l, text) :: f.files.filter (·.1 ≠ l) }

/-- Takes over a folder. -/
def withFolder (f : Folder) (path : String) : Folder :=
  { f with folders := Location.ofPath path :: f.folders }

/-- The files that are not in an earlier folder in the same way, as paths and texts. -/
def changedSince (f earlier : Folder) : List (String × String) :=
  f.files.filterMap fun (l, text) =>
    if earlier.files.lookup l = some text then none else some (Location.path l, text)

end Folder

end Ontology
