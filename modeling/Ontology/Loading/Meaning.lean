import Ontology.Loading.Keyword

/-!
# What nodes mean

## Main definitions

* `Node.toClassExpression`, `Node.toNamedClass`, `Node.toIndividual`, `Node.toProperty`,
  `Node.toDomain`, `Node.toRange`, `Node.toCharacteristics`, `Node.toTexts` — the meaning of a
  node where a class expression, a class and so on is expected.
-/

namespace Ontology

/-- The class expression of a term. -/
def Term.toClassExpression (t : Term) : Loading ClassExpression :=
  match t.entity? with
  | some (.class c) => .ok (.named c)
  | some .thing => .ok .thing
  | some .nothing => .ok .nothing
  | _ => (LoadFault.expectedClass t.display).raise

namespace Node

/-- The individual that a node names. -/
def toIndividual : Node → Loading IndividualId
  | .term (.entity _ (.individual i)) => .ok i
  | n => (LoadFault.expectedIndividual n.describe).raise

mutual

/-- The class expression of a node below a keyword. -/
def bareExpression : Node → Loading ClassExpression
  | .term t => t.toClassExpression
  | .combination kind items =>
    match kind with
    | .or => do return .or (← toClassExpressions items)
    | .and => do return .and (← toClassExpressions items)
    | .oneOf => do return .oneOf (← items.mapM toIndividual)
  | .container keyword data =>
    (LoadFault.expectedClassExpression (describe (.container keyword data))).raise
  | .raw t => (LoadFault.expectedClassExpression (describe (.raw t))).raise
  | .pairs entries => (LoadFault.expectedClassExpression (describe (.pairs entries))).raise
  | .list items => (LoadFault.expectedClassExpression (describe (.list items))).raise
termination_by structural n => n

/-- The class expression of a node. -/
def toClassExpression : Node → Loading ClassExpression
  | .container _ data => bareExpression data
  | .term t => t.toClassExpression
  | .combination kind items =>
    match kind with
    | .or => do return .or (← toClassExpressions items)
    | .and => do return .and (← toClassExpressions items)
    | .oneOf => do return .oneOf (← items.mapM toIndividual)
  | .raw t => (LoadFault.expectedClassExpression (describe (.raw t))).raise
  | .pairs entries => (LoadFault.expectedClassExpression (describe (.pairs entries))).raise
  | .list items => (LoadFault.expectedClassExpression (describe (.list items))).raise
termination_by structural n => n

/-- The class expressions of nodes. -/
def toClassExpressions : List Node → Loading (List ClassExpression)
  | [] => .ok []
  | n :: rest => do
    let e ← toClassExpression n
    return e :: (← toClassExpressions rest)
termination_by structural n => n

end

/-- A named class or `owl:Thing`, as needed for parents and types. -/
def toNamedClass : Node → Loading ClassExpression
  | .term t => do
    match ← t.toClassExpression with
    | .nothing => LoadFault.nothingAsType.raise
    | e => return e
  | n => (LoadFault.expectedClassName n.describe).raise

/-- The property that a node names. -/
def toProperty (n : Node) : Loading PropertyId :=
  match n.data with
  | .term (.entity _ (.property p)) => .ok p
  | n => (LoadFault.expectedProperty n.describe).raise

/-- The domain of a property: one class expression. -/
def toDomain (n : Node) : Loading (List ClassExpression) := do
  return [← n.toClassExpression]

/-- The datatype that a node names. -/
def datatype? : Node → Option Datatype
  | .term (.entity _ (.datatype d)) => some d
  | _ => none

/-- The range of a property: class expressions or datatypes, but not both. -/
def toRange (n : Node) : Loading PropertyRange :=
  let alternatives :=
    match n.data with
    | .combination .or items => items
    | data => [data]
  let datatypes := alternatives.filterMap datatype?
  if datatypes.isEmpty then do
    return .classes [← n.data.toClassExpression]
  else if datatypes.length ≠ alternatives.length then
    (LoadFault.mixedRange (", ".intercalate (alternatives.map describe))).raise
  else .ok (.datatypes datatypes)

/-- The characteristics of a property. -/
def toCharacteristics (n : Node) : Loading Characteristics := do
  return .ofList (← n.items.mapM fun
    | .term (.entity _ (.characteristic c)) => .ok c
    | item => (LoadFault.expectedCharacteristic item.describe).raise)

/-- Free texts; numbers and truth values are taken as written. -/
def toTexts (n : Node) : Loading (List String) :=
  n.items.mapM fun
    | .raw (.string text) => .ok text
    | .raw t@(.int _) | .raw t@(.float _) | .raw t@(.bool _) => .ok t.render
    | item => (LoadFault.expectedText item.describe).raise

end Node

end Ontology
