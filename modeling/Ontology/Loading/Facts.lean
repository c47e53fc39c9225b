import Ontology.Expression.Outline
import Ontology.Loading.Session

/-!
# Facts in documents

A value of a functional property replaces the one before, a value of any other property is added.

## Main definitions

* `World.valueOf` — the value that a term stands for under a property.
* `LoadSession.applyFact` — states the values of a pair.
* `LoadSession.applyFacts`, `LoadSession.propertyFacts` — the facts of a body and of a statement.
-/

namespace Ontology

namespace World

/-- A class of a range in messages. -/
def rangeClassText (w : World) : ClassExpression → String
  | .named c => (w.getClass c).name
  | .thing => "owl:Thing"
  | .nothing => "owl:Nothing"
  | e => e.outline

/-- The range of a property in messages. -/
def rangeText (w : World) (p : PropertyId) : String :=
  let parts := match (w.getProperty p).range with
    | .datatypes datatypes => datatypes.map Datatype.name
    | .classes classes => classes.map w.rangeClassText
  "[" ++ ", ".intercalate parts ++ "]"

/-- The value of an object property that a term stands for. -/
def objectValue (property : String) : Term → Loading Value
  | .entity _ (.individual i) => .ok (.individual i)
  | .entity _ (.class c) => .ok (.expression (.named c))
  | .entity _ .thing => .ok (.expression .thing)
  | .entity _ .nothing => .ok (.expression .nothing)
  | .literal l => (LoadFault.literalForObject l.datatype.name property).raise
  | t => (LoadFault.unresolvedForObject property t.display).raise

/-- The literal of a data property that a term stands for. -/
def dataLiteral (property : String) : Term → Loading Literal
  | .literal l => .ok l
  | .unresolved text => .ok (.text text)
  | .entity name _ => (LoadFault.entityForData property name).raise

/-- The value that a term stands for under a property. -/
def valueOf (w : World) (p : PropertyId) (t : Term) : Loading Value := do
  let property := w.getProperty p
  match property.kind with
  | .object => objectValue property.name t
  | .data =>
    let l ← dataLiteral property.name t
    if property.range.accepts l then return .literal l
    else (LoadFault.outOfRange l.display (w.rangeText p) property.name).raise

end World

namespace LoadSession

/-- States the values of a pair for a subject. -/
def applyFact (s : LoadSession) (p : PropertyId) (subject : IndividualId) (value : PairValue) :
    Loading LoadSession := do
  let values ← value.terms.mapM (s.world.valueOf p)
  if (s.world.getProperty p).characteristics.functional then
    match value, values with
    | .single _, [v] => return { s with world := s.world.setFact subject p v }
    | _, _ =>
      (LoadFault.listForFunctional (s.world.getProperty p).name (s.world.rangeText p)
        (", ".intercalate (value.terms.map Term.display))).raise
  else
    return { s with world := values.foldl (fun w v => w.pushFact subject p v) s.world }

/-- The individual that a fact is about. -/
def factSubject : Term → Loading IndividualId
  | .entity _ (.individual i) => .ok i
  | t => (LoadFault.badFactSubject t.display).raise

/-- States the pairs of a node. -/
def applyPairs (s : LoadSession) (p : PropertyId) : Node → Loading LoadSession
  | .pairs entries =>
    entries.foldlM (fun s (subject, value) => do s.applyFact p (← factSubject subject) value) s
  | n => (LoadFault.expectedFacts n.outline).raise

/-- States the facts of a body. -/
def applyFacts (s : LoadSession) (p : PropertyId) (body : List (String × Node)) :
    Loading LoadSession :=
  match body.lookup "Facts" with
  | none => .ok s
  | some facts => facts.items.foldlM (fun s n => s.applyPairs p n) s

/-- A statement of facts: properties with their facts. -/
def propertyFacts (s : LoadSession) (t : Tree) : Loading LoadSession := do
  let entries ← Shape.stringEntries (← Shape.asMapping "property_facts" t)
  entries.foldlM (fun s (name, inner) => do
    let p ← s.property name
    let body ← s.world.readKeywords (← Shape.declarationBody "property_facts" inner)
    s.applyFacts p body) s

end LoadSession

end Ontology
