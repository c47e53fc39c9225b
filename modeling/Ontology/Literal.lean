import Ontology.Binary64.Text
import Ontology.Tree.Json

/-!
# Literals and datatypes

## Main definitions

* `Literal` — an integer, a double, a text or a truth value; two doubles are equal when their
  bits are.
* `Literal.lexical` — its text in a graph.
* `Datatype.accepts` — the literals that a data property with this datatype in its range may
  hold; an integer is also a value for `float`.
-/

namespace Ontology

/-- A value that is no individual. -/
inductive Literal where
  | int (value : Int)
  | float (value : Binary64)
  | text (value : String)
  | bool (value : Bool)
  deriving DecidableEq, Repr, Inhabited

/-- The kinds of literals. -/
inductive Datatype where
  | int
  | float
  | text
  | bool
  deriving DecidableEq, Repr, Inhabited

/-- The name of a datatype in a document. -/
def Datatype.name : Datatype → String
  | .int => "int"
  | .float => "float"
  | .text => "str"
  | .bool => "bool"

/-- A literal may be stored under a datatype. -/
def Datatype.accepts : Datatype → Literal → Bool
  | .int, .int _ => true
  | .float, .float _ => true
  | .float, .int _ => true
  | .text, .text _ => true
  | .bool, .bool _ => true
  | _, _ => false

namespace Literal

/-- The datatype of a literal. -/
def datatype : Literal → Datatype
  | .int _ => .int
  | .float _ => .float
  | .text _ => .text
  | .bool _ => .bool

/-- The text of a literal without its datatype. -/
def lexical : Literal → String
  | .int n => toString n
  | .float x => x.positional
  | .text s => s
  | .bool b => Tree.boolText b

/-- The text of a literal in messages: texts stand between quotes. -/
def display : Literal → String
  | .text s => "\"" ++ s ++ "\""
  | l => l.lexical

/-- The structure of a literal with its constructor named. -/
def outline : Literal → String
  | .int n => "Int(" ++ toString n ++ ")"
  | .float x => "Float(" ++ (x.scientific?.getD x.positional) ++ ")"
  | .text s => "Str(" ++ Text.quote s ++ ")"
  | .bool b => "Bool(" ++ Tree.boolText b ++ ")"

/-- The value of a text literal. -/
def text? : Literal → Option String
  | .text s => some s
  | _ => none

end Literal

/-- A datatype accepts the literals of its own kind. -/
theorem Datatype.accepts_datatype (l : Literal) : l.datatype.accepts l = true := by
  cases l <;> rfl

end Ontology
