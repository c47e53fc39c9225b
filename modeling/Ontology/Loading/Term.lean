import Ontology.Loading.Shape
import Ontology.World

/-!
# Terms

A scalar of a document is a name, a literal or, where unknown names are accepted, a text that
stands for itself.

## Main definitions

* `Term` — a resolved scalar.
* `World.resolveName`, `World.resolve` — the term of a text and of a scalar.
-/

namespace Ontology

/-- A resolved scalar. -/
inductive Term where
  /-- A declared name. -/
  | entity (name : String) (entity : Entity)
  | literal (l : Literal)
  /-- An unknown name that was accepted. -/
  | unresolved (text : String)
  deriving DecidableEq, Repr, Inhabited

namespace Term

/-- The entity of a term. -/
def entity? : Term → Option Entity
  | .entity _ e => some e
  | _ => none

/-- The text of a term in messages. -/
def display : Term → String
  | .entity name _ => name
  | .literal l => l.display
  | .unresolved text => text

/-- The structure of a term with its constructors named. -/
def outline : Term → String
  | .entity name e =>
    "Entity \x7b name: " ++ Text.quote name ++ ", entity: " ++ e.outline ++ " \x7d"
  | .literal l => "Literal(" ++ l.outline ++ ")"
  | .unresolved text => "Unresolved(" ++ Text.quote text ++ ")"

end Term

/-- What stands between two equal quotes. -/
def quotedPart? (text : String) : Option String :=
  match text.toList with
  | first :: rest =>
    if (first = '"' ∨ first = '\'') ∧ rest.getLast? = some first then
      some (String.ofList rest.dropLast)
    else none
  | [] => none

namespace World

/-- The term of a text: a quoted part is a literal, all else a name.  Unknown names fail unless
`lenient` holds. -/
def resolveName (w : World) (lenient : Bool) (text : String) : Loading Term :=
  match quotedPart? text with
  | some part => .ok (.literal (.text part))
  | none =>
    match w.lookup? text with
    | some entity => .ok (.entity text entity)
    | none => if lenient then .ok (.unresolved text) else (LoadFault.badName (.unknown text)).raise

/-- The term of a scalar.  An integer of more than 63 bits counts as a double. -/
def resolve (w : World) (lenient : Bool) : Tree → Loading Term
  | .string text => w.resolveName lenient text
  | .bool b => .ok (.literal (.bool b))
  | .int n => .ok (.literal (if n < Nat.pow 2 63 then .int n else .float (.ofInt n)))
  | .float x => .ok (.literal (.float x))
  | t => (LoadFault.notResolvable t.render).raise

end World

end Ontology
