import Ontology.Reasoning.Schema
import Ontology.Reasoning.Truth

/-!
# Evaluation of class expressions

Whether an individual belongs to a class expression, as far as it is known.  The named classes of
an individual are known completely, the values of its properties in part.

## Main definitions

* `Successors` — what is known of the values of a relation for one individual.
* `View` — what an evaluation can ask.
* `View.member`, `View.accepts` — an individual belongs to an expression, a value matches a filler.
* `World.assertedView` — the view of an interpretation.
-/

namespace Ontology

/-- What is known of the values of a relation for one individual. -/
structure Successors where
  /-- Values for certain. -/
  known : List Value
  /-- Individuals that may turn out to be values. -/
  possible : List IndividualId := []
  /-- Any other value may turn up as well. -/
  isOpen : Bool := false
  deriving DecidableEq, Repr, Inhabited

/-- Some value passes a test. -/
def Successors.exists (s : Successors) (test : Value → Truth) : Truth :=
  let known := s.known.map test
  if .holds ∈ known then .holds
  else if s.isOpen ∨ .unknown ∈ known ∨ s.possible.any (fun i => test (.individual i) ≠ .fails) then
    .unknown
  else .fails

/-- What an evaluation can ask. -/
structure View where
  /-- The individual belongs to the class. -/
  hasType : IndividualId → ClassId → Bool
  /-- The values of a property read in one direction. -/
  successors : PropertyExpression → IndividualId → Successors

/-- The value that a restriction to one value asks for. -/
def Filler.value? : Filler → Option Value
  | .expression e => some (.expression e)
  | .individual i => some (.individual i)
  | .literal l => some (.literal l)
  | .datatype _ => none

namespace View

mutual

/-- The individual belongs to the expression. -/
def member (v : View) : ClassExpression → IndividualId → Truth
  | .thing, _ => .holds
  | .nothing, _ => .fails
  | .named c, i => .ofBool (v.hasType i c)
  | .and parts, i => memberOfAll v parts i
  | .or parts, i => memberOfAny v parts i
  | .not inner, i => (member v inner i).not
  | .oneOf members, i => .ofBool (members.contains i)
  | .restriction property quantifier filler, i =>
    (v.successors property i).exists fun value =>
      match quantifier with
      | .some => accepts v filler value
      | .value => .ofBool (filler.value? = some value)
termination_by structural e => e

/-- The individual belongs to all of the expressions. -/
def memberOfAll (v : View) : List ClassExpression → IndividualId → Truth
  | [], _ => .holds
  | part :: rest, i => (member v part i).and (memberOfAll v rest i)
termination_by structural parts => parts

/-- The individual belongs to at least one of the expressions. -/
def memberOfAny (v : View) : List ClassExpression → IndividualId → Truth
  | [], _ => .fails
  | part :: rest, i => (member v part i).or (memberOfAny v rest i)
termination_by structural parts => parts

/-- The value is what a filler asks for. -/
def accepts (v : View) : Filler → Value → Truth
  | .expression e, value =>
    match value with
    | .individual i => member v e i
    | .expression _ | .literal _ => .ofBool (e = .thing)
  | .individual i, value => .ofBool (value = .individual i)
  | .literal l, value => .ofBool (value = .literal l)
  | .datatype d, value => .ofBool (value.literal?.any d.accepts)
termination_by structural f => f

end

/-- The value belongs to the expression; what is no individual belongs to all things only. -/
def judge (v : View) (e : ClassExpression) (value : Value) : Truth :=
  v.accepts (.expression e) value

/-- The individual satisfies the restriction. -/
def satisfies (v : View) (r : Restriction) (i : IndividualId) : Truth :=
  v.member r.toExpression i

end View

namespace World

/-- The values of a relation that an interpretation knows.  There may be others unless the
relation is marked as complete, or is functional and has a value. -/
def assertedSuccessors (w : World) (I : Interpretation) (r : PropertyExpression)
    (i : IndividualId) : Successors :=
  let known := I.related r i
  { known, isOpen := !(w.isComplete I r i || (w.isFunctional r && !known.isEmpty)) }

/-- The view of an interpretation. -/
def assertedView (w : World) (I : Interpretation) : View where
  hasType := I.hasType
  successors property i := w.assertedSuccessors I (w.relation property) i

end World

end Ontology
