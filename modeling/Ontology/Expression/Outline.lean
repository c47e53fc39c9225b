import Ontology.Expression

/-!
# Outlines of expressions

The structure of an expression with its constructors named and its entities by their place.

## Main definitions

* `ClassExpression.outline`, `Filler.outline` — the structures.
-/

namespace Ontology

/-- The structure of a property read in one direction. -/
def PropertyExpression.outline : PropertyExpression → String
  | .named p => "Named(PropertyId(" ++ toString p.index ++ "))"
  | .inverse p => "Inverse(PropertyId(" ++ toString p.index ++ "))"

/-- The structure of a quantifier. -/
def Quantifier.outline : Quantifier → String
  | .some => "Some"
  | .value => "Value"

/-- The structure of an individual. -/
def IndividualId.outline (i : IndividualId) : String :=
  "IndividualId(" ++ toString i.index ++ ")"

/-- The structure of a datatype. -/
def Datatype.outline : Datatype → String
  | .int => "Int"
  | .float => "Float"
  | .text => "Str"
  | .bool => "Bool"

mutual

/-- The structure of an expression. -/
def ClassExpression.outline : ClassExpression → String
  | .thing => "Thing"
  | .nothing => "Nothing"
  | .named c => "Named(ClassId(" ++ toString c.index ++ "))"
  | .and parts => "And([" ++ ", ".intercalate (ClassExpression.outlines parts) ++ "])"
  | .or parts => "Or([" ++ ", ".intercalate (ClassExpression.outlines parts) ++ "])"
  | .not inner => "Not(" ++ inner.outline ++ ")"
  | .oneOf members =>
    "OneOf([" ++ ", ".intercalate (members.map IndividualId.outline) ++ "])"
  | .restriction property quantifier filler =>
    "Restriction(Restriction \x7b property: " ++ property.outline ++ ", quantifier: "
      ++ quantifier.outline ++ ", filler: " ++ filler.outline ++ " \x7d)"
termination_by structural e => e

/-- The structures of expressions. -/
def ClassExpression.outlines : List ClassExpression → List String
  | [] => []
  | e :: rest => e.outline :: ClassExpression.outlines rest
termination_by structural e => e

/-- The structure of a filler. -/
def Filler.outline : Filler → String
  | .expression e => "Class(" ++ e.outline ++ ")"
  | .individual i => "Individual(" ++ i.outline ++ ")"
  | .literal l => "Literal(" ++ l.outline ++ ")"
  | .datatype d => "Datatype(" ++ d.outline ++ ")"
termination_by structural e => e

end

end Ontology
