import Ontology.Tree
import Ontology.Binary64.Text
import Ontology.Text.Quoted

/-!
# Writing trees as JSON

## Main definitions

* `Tree.json?` — the compact JSON text of a tree, if JSON can hold it: the keys of a mapping must
  be strings, numbers or truth values.
* `Tree.render` — that text, or an outline of the tree's structure where there is none.
* `Tree.pretty` — JSON over several lines, for trees with string keys.
-/

namespace Ontology.Tree

/-! ### Strings and scalars -/

/-- How one character is written in a JSON string. -/
def jsonChar (c : Char) : String :=
  match c with
  | '"' => "\\\""
  | '\\' => "\\\\"
  | '\n' => "\\n"
  | '\r' => "\\r"
  | '\t' => "\\t"
  | '\x08' => "\\b"
  | '\x0c' => "\\f"
  | c => if c.toNat < 0x20 then "\\u" ++ Text.hexDigits 4 c.toNat else c.toString

/-- A JSON string. -/
def jsonString (text : String) : String :=
  "\"" ++ String.join (text.toList.map jsonChar) ++ "\""

/-- A truth value. -/
def boolText (b : Bool) : String :=
  if b then "true" else "false"

/-- A JSON number; numbers without a decimal text are written as `null`. -/
def jsonFloat (x : Binary64) : String :=
  x.scientific?.getD "null"

/-- The text of a key, if it can be a JSON key. -/
def jsonKey? : Tree → Option String
  | .string text => some (jsonString text)
  | .bool b => some (jsonString (boolText b))
  | .int n => some (jsonString (toString n))
  | .float x => x.scientific?.map jsonString
  | _ => none

/-! ### Compact text -/

mutual

/-- The compact JSON text of a tree. -/
def json? : Tree → Option String
  | .null => some "null"
  | .bool b => some (boolText b)
  | .int n => some (toString n)
  | .float x => some (jsonFloat x)
  | .string text => some (jsonString text)
  | .sequence items => (jsonItems? items).map fun parts => "[" ++ ",".intercalate parts ++ "]"
  | .mapping entries =>
    (jsonEntries? entries).map fun parts => "\x7b" ++ ",".intercalate parts ++ "\x7d"
  | .tagged tag value =>
    (json? value).map fun text => "\x7b" ++ jsonString ("!" ++ tag) ++ ":" ++ text ++ "\x7d"
termination_by structural t => t

/-- The texts of the items of a sequence. -/
def jsonItems? : List Tree → Option (List String)
  | [] => some []
  | item :: rest => do
    let text ← json? item
    let texts ← jsonItems? rest
    return text :: texts
termination_by structural t => t

/-- The texts of the entries of a mapping. -/
def jsonEntries? : List (Tree × Tree) → Option (List String)
  | [] => some []
  | (key, value) :: rest => do
    let name ← jsonKey? key
    let text ← json? value
    let texts ← jsonEntries? rest
    return (name ++ ":" ++ text) :: texts
termination_by structural t => t

end

/-! ### Outline -/

mutual

/-- The structure of a tree with its constructors named. -/
def outline : Tree → String
  | .null => "Null"
  | .bool b => "Bool(" ++ boolText b ++ ")"
  | .int n => "Number(" ++ toString n ++ ")"
  | .float x => "Number(" ++ jsonFloat x ++ ")"
  | .string text => "String(" ++ Text.quote text ++ ")"
  | .sequence items => "Sequence [" ++ ", ".intercalate (outlineItems items) ++ "]"
  | .mapping entries =>
    "Mapping \x7b" ++ ", ".intercalate (outlineEntries entries) ++ "\x7d"
  | .tagged tag value => "Tagged(!" ++ tag ++ ", " ++ outline value ++ ")"
termination_by structural t => t

/-- The outlines of items. -/
def outlineItems : List Tree → List String
  | [] => []
  | item :: rest => outline item :: outlineItems rest
termination_by structural t => t

/-- The outlines of entries. -/
def outlineEntries : List (Tree × Tree) → List String
  | [] => []
  | (key, value) :: rest => (outline key ++ ": " ++ outline value) :: outlineEntries rest
termination_by structural t => t

end

/-- A one-line text of the tree for messages. -/
def render (t : Tree) : String :=
  t.json?.getD t.outline

/-! ### Text over several lines -/

/-- The lines of a bracketed list: nothing between the brackets of an empty one, else each part
on its own line, two blanks further in than the brackets. -/
def block (left right : String) (indent : Nat) (parts : List String) : String :=
  let line (n : Nat) := "\n" ++ String.ofList (List.replicate n ' ')
  if parts.isEmpty then left ++ right
  else left ++ line (indent + 2) ++ ("," ++ line (indent + 2)).intercalate parts
    ++ line indent ++ right

mutual

/-- JSON with each item and entry on a line of its own, starting in column `indent`. -/
def pretty (indent : Nat) : Tree → String
  | .sequence items => block "[" "]" indent (prettyItems (indent + 2) items)
  | .mapping entries => block "\x7b" "\x7d" indent (prettyEntries (indent + 2) entries)
  | .tagged tag value =>
    block "\x7b" "\x7d" indent [jsonString ("!" ++ tag) ++ ": " ++ pretty (indent + 2) value]
  | .null => "null"
  | .bool b => boolText b
  | .int n => toString n
  | .float x => jsonFloat x
  | .string text => jsonString text
termination_by structural t => t

/-- The texts of items that start in column `indent`. -/
def prettyItems (indent : Nat) : List Tree → List String
  | [] => []
  | item :: rest => pretty indent item :: prettyItems indent rest
termination_by structural t => t

/-- The texts of entries that start in column `indent`. -/
def prettyEntries (indent : Nat) : List (Tree × Tree) → List String
  | [] => []
  | (key, value) :: rest =>
    ((jsonKey? key).getD "null" ++ ": " ++ pretty indent value) :: prettyEntries indent rest
termination_by structural t => t

end

end Ontology.Tree
