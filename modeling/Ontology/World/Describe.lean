import Ontology.World

/-!
# Descriptions

The text of expressions, values and names in messages and reports, such as
`lives_in some (has_color value red)`.

## Main definitions

* `World.describe`, `World.describeNested` — an expression, alone or as a part of another one.
* `World.describeValue` — a value.
* `World.entityName` — the name of anything that a name can stand for.
-/

namespace Ontology.World

/-- Conjunctions, disjunctions and restrictions are put between parentheses inside others. -/
def needsParentheses : ClassExpression → Bool
  | .and _ | .or _ | .restriction .. => true
  | _ => false

/-- A text between parentheses where they are needed. -/
def parenthesized (e : ClassExpression) (text : String) : String :=
  if needsParentheses e then "(" ++ text ++ ")" else text

/-- The text of a property read in one direction. -/
def describeProperty (w : World) : PropertyExpression → String
  | .named p => (w.getProperty p).name
  | .inverse p => "inverse(" ++ (w.getProperty p).name ++ ")"

/-- The text of a literal. -/
def describeLiteral (l : Literal) : String :=
  Text.quote l.lexical

mutual

/-- The text of an expression. -/
def describe (w : World) : ClassExpression → String
  | .thing => "owl:Thing"
  | .nothing => "owl:Nothing"
  | .named c => (w.getClass c).name
  | .and parts => " and ".intercalate (describeParts w parts)
  | .or parts => " or ".intercalate (describeParts w parts)
  | .not inner => "not " ++ parenthesized inner (describe w inner)
  | .oneOf members =>
    "\x7b" ++ ", ".intercalate (members.map fun i => (w.getIndividual i).name) ++ "\x7d"
  | .restriction property quantifier filler =>
    describeProperty w property ++ " " ++ quantifier.name ++ " " ++ describeFiller w filler
termination_by structural e => e

/-- The texts of the parts of an expression. -/
def describeParts (w : World) : List ClassExpression → List String
  | [] => []
  | part :: rest => parenthesized part (describe w part) :: describeParts w rest
termination_by structural e => e

/-- The text of a filler. -/
def describeFiller (w : World) : Filler → String
  | .expression e => parenthesized e (describe w e)
  | .individual i => (w.getIndividual i).name
  | .literal l => describeLiteral l
  | .datatype d => d.name
termination_by structural e => e

end

/-- The text of a value. -/
def describeValue (w : World) : Value → String
  | .individual i => (w.getIndividual i).name
  | .expression e => w.describe e
  | .literal l => describeLiteral l

/-- The name of an entity. -/
def entityName (w : World) : Entity → String
  | .class c => (w.getClass c).name
  | .property p => (w.getProperty p).name
  | .individual i => (w.getIndividual i).name
  | .rule r => (w.getRule r).name
  | .thing => "owl:Thing"
  | .nothing => "owl:Nothing"
  | .datatype d => d.name
  | .characteristic c => c.name
  | .connective c => c.name
  | .quantifier q => q.name
  | .inverse => "Inverse"

end Ontology.World
