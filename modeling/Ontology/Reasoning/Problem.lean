import Ontology.Reasoning.Evaluation

/-!
# Search problems

Individuals are taken to be all there are.  For every functional relation that a restriction reads,
each individual of its domain without a known value may have any individual of its range as its
value, or none; the restrictions tell which choices go together.

## Main definitions

* `Variable`, `Slot`, `Decision` — an open value and what is left of its options.
* `Constraint` — a restriction that an individual has to satisfy.
* `SearchProblem` — what has to be decided; `World.searchProblem` sets it up.
* `SearchProblem.view` — what can be asked under partial decisions.
-/

namespace Ontology

/-! ### Decisions -/

/-- The open value of a relation for an individual. -/
structure Variable where
  relation : PropertyExpression
  subject : IndividualId
  /-- No two variables of the relation have the same individual as their value. -/
  isDistinct : Bool
  deriving DecidableEq, Repr, Inhabited

/-- What is left of the options of a variable; `none` stands for having no value. -/
inductive Slot where
  | undecided (options : List (Option IndividualId))
  | decided (choice : Option IndividualId)
  deriving DecidableEq, Repr, Inhabited

namespace Slot

/-- The options left. -/
def options : Slot → List (Option IndividualId)
  | undecided options => options
  | decided choice => [choice]

/-- Nothing has been chosen. -/
def isUndecided : Slot → Bool
  | undecided _ => true
  | decided _ => false

/-- Takes an individual away; `none` if nothing else is left. -/
def without (x : IndividualId) : Slot → Option Slot
  | decided choice => if choice = some x then none else some (decided choice)
  | undecided options =>
    let rest := options.filter (· ≠ some x)
    if rest.isEmpty then none else some (undecided rest)

end Slot

/-- A variable with what is left of its options. -/
structure Decision where
  about : Variable
  slot : Slot
  deriving DecidableEq, Repr, Inhabited

/-! ### Constraints -/

mutual

/-- The properties that the restrictions in an expression read. -/
def ClassExpression.readProperties : ClassExpression → List PropertyExpression
  | .and parts => ClassExpression.readPropertiesOfParts parts
  | .or parts => ClassExpression.readPropertiesOfParts parts
  | .not inner => inner.readProperties
  | .restriction property _ filler => property :: filler.readProperties
  | .thing | .nothing | .named _ | .oneOf _ => []
termination_by structural e => e

/-- The properties that the restrictions in a list of expressions read. -/
def ClassExpression.readPropertiesOfParts : List ClassExpression → List PropertyExpression
  | [] => []
  | part :: rest => part.readProperties ++ ClassExpression.readPropertiesOfParts rest
termination_by structural parts => parts

/-- The properties that the restrictions in a filler read. -/
def Filler.readProperties : Filler → List PropertyExpression
  | .expression e => e.readProperties
  | .individual _ | .literal _ | .datatype _ => []
termination_by structural f => f

end

/-- A restriction that an individual has to satisfy. -/
structure Constraint where
  subject : IndividualId
  restriction : Restriction
  /-- The properties whose relations matter for it. -/
  reads : List PropertyId
  deriving DecidableEq, Repr, Inhabited

namespace World

/-- A restriction that an individual has to satisfy. -/
def constraint (w : World) (r : Restriction) (i : IndividualId) : Constraint where
  subject := i
  restriction := r
  reads := r.toExpression.readProperties.map (w.relation · |>.property)

/-- The restrictions stated about individuals, and those stated about classes for all of their
known instances. -/
def constraints (w : World) (I : Interpretation) : List Constraint :=
  w.individualIds.flatMap (fun i => (w.getIndividual i).membershipAxioms.map (w.constraint · i))
    ++ w.classIds.flatMap (fun c =>
      (w.getClass c).restrictions.flatMap fun r => (I.instancesOf c).map (w.constraint r))

end World

/-! ### Problems -/

/-- What has to be decided. -/
structure SearchProblem where
  world : World
  interpretation : Interpretation
  constraints : List Constraint
  /-- The relations that are decided completely. -/
  searched : List PropertyExpression
  /-- All variables with all of their options. -/
  start : List Decision
  deriving Repr, Inhabited

namespace World

/-- The direction in which the values of a property can be decided. -/
def searchedRelation? (w : World) (p : PropertyId) : Option PropertyExpression :=
  let property := w.getProperty p
  match property.kind with
  | .data => none
  | .object =>
    if property.characteristics.functional then some (.named p)
    else if property.characteristics.inverseFunctional then some (.inverse p)
    else none

/-- The individuals that belong to all of the expressions for certain. -/
def certainMembers (w : World) (I : Interpretation) (es : List ClassExpression) :
    List IndividualId :=
  let view := w.assertedView I
  w.individualIds.filter fun i => es.all fun e => view.member e i = .holds

/-- The expressions that the subjects of a relation belong to. -/
def subjectTypes (w : World) : PropertyExpression → List ClassExpression
  | .named p => (w.getProperty p).domain
  | .inverse p => (w.getProperty p).rangeClasses

/-- The values of a relation are all different. -/
def isDistinct (w : World) (r : PropertyExpression) : Bool :=
  w.isFunctional r && w.isFunctional r.reversed

/-- The individuals that may be chosen as values of a relation; those that are values already are
not chosen again if values are all different. -/
def possibleValues (w : World) (I : Interpretation) (r : PropertyExpression) :
    List IndividualId :=
  (w.certainMembers I (w.subjectTypes r.reversed)).filter fun v =>
    !w.isDistinct r || (I.related r.reversed v).isEmpty

/-- The individuals whose value of a relation is open. -/
def openSubjects (w : World) (I : Interpretation) (r : PropertyExpression) :
    List IndividualId :=
  (w.certainMembers I (w.subjectTypes r)).filter fun s =>
    !w.isComplete I r s && (I.related r s).isEmpty

/-- The variables of a relation with all of their options. -/
def decisions (w : World) (I : Interpretation) (r : PropertyExpression) : List Decision :=
  let options := (w.possibleValues I r).map some ++ [none]
  (w.openSubjects I r).map fun subject =>
    { about := { relation := r, subject, isDistinct := w.isDistinct r }
      slot := .undecided options }

/-- The relations to decide, in the order of their properties. -/
def searchedRelations (w : World) (cs : List Constraint) : List PropertyExpression :=
  (w.propertyIds.filter fun p => cs.any (p ∈ ·.reads)).filterMap w.searchedRelation?

/-- What has to be decided to satisfy all restrictions. -/
def searchProblem (w : World) (I : Interpretation) : SearchProblem :=
  let constraints := w.constraints I
  let searched := w.searchedRelations constraints
  { world := w, interpretation := I, constraints, searched,
    start := searched.flatMap (w.decisions I) }

end World

namespace SearchProblem

/-- The values of a relation that decisions about its inverse lead to. -/
def turnedSuccessors (known : List Value) (ds : List Decision) (i : IndividualId) :
    Successors where
  known := known ++ ds.filterMap fun d =>
    if d.slot = .decided (some i) then some (.individual d.about.subject) else none
  possible := ds.filterMap fun d =>
    if d.slot.isUndecided ∧ some i ∈ d.slot.options then some d.about.subject else none

/-- The values of a relation under partial decisions. -/
def relationSuccessors (p : SearchProblem) (ds : List Decision) (r : PropertyExpression)
    (i : IndividualId) : Successors :=
  let known := p.interpretation.related r i
  match ds.find? fun d => d.about.relation = r ∧ d.about.subject = i with
  | some d =>
    match d.slot with
    | .decided choice => { known := known ++ (choice.map Value.individual).toList }
    | .undecided options => { known, possible := options.filterMap id }
  | none =>
    if r ∈ p.searched then { known }
    else if r.reversed ∈ p.searched then
      turnedSuccessors known (ds.filter (·.about.relation = r.reversed)) i
    else p.world.assertedSuccessors p.interpretation r i

/-- What can be asked under partial decisions. -/
def view (p : SearchProblem) (ds : List Decision) : View where
  hasType := p.interpretation.hasType
  successors property i := p.relationSuccessors ds (p.world.relation property) i

/-- Whether a constraint is satisfied under partial decisions. -/
def evaluate (p : SearchProblem) (ds : List Decision) (c : Constraint) : Truth :=
  (p.view ds).satisfies c.restriction c.subject

/-- No constraint that the relation of a variable matters for fails. -/
def admits (p : SearchProblem) (ds : List Decision) (v : Variable) : Bool :=
  p.constraints.all fun c =>
    v.relation.property ∉ c.reads || p.evaluate ds c ≠ .fails

end SearchProblem

end Ontology
