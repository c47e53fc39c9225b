import Ontology.Reasoning.Evaluation
import Ontology.Reasoning.Rules

/-!
# Saturation

Everything that follows without a choice is added round by round: inverses, symmetry, transitivity
and more general properties, then the rules, then domains, ranges, superclasses and definitions.

## Main definitions

* `World.propertyConsequences`, `World.typeConsequences` — what follows in one step.
* `World.saturationRound` — one round.
* `World.saturate` — rounds until nothing is added or no more rounds are allowed, and then the
  test for inconsistencies.
-/

namespace Ontology

mutual

/-- The named classes that all members of an expression belong to. -/
def ClassExpression.namedConjuncts : ClassExpression → List ClassId
  | .named c => [c]
  | .and parts => ClassExpression.namedConjunctsOfParts parts
  | _ => []
termination_by structural e => e

/-- The named classes that all members of a conjunction belong to. -/
def ClassExpression.namedConjunctsOfParts : List ClassExpression → List ClassId
  | [] => []
  | part :: rest => part.namedConjuncts ++ ClassExpression.namedConjunctsOfParts rest
termination_by structural parts => parts

end

namespace World

/-! ### Consequences of facts -/

/-- The facts that follow from a fact. -/
def consequencesOf (w : World) (I : Interpretation) (f : Fact) : List Fact :=
  let property := w.getProperty f.property
  let turned :=
    match f.value with
    | .individual o =>
      let back (p : PropertyId) : Fact := ⟨o, p, .individual f.subject⟩
      property.inverseOf.toList.map back
        ++ (w.inversesOf f.property).map back
        ++ (if property.characteristics.symmetric then [back f.property] else [])
        ++ (if property.characteristics.transitive then
            (I.values f.property o).filterMap fun v =>
              v.individual?.map fun next => ⟨f.subject, f.property, .individual next⟩
          else [])
    | _ => []
  turned ++ property.parents.map fun parent => ⟨f.subject, parent, f.value⟩

/-- The facts that follow from facts, apart from markers. -/
def propertyConsequences (w : World) (I : Interpretation) : List Fact :=
  (I.facts.filter (!·.value.isNothing)).flatMap (w.consequencesOf I)

/-! ### Consequences for types -/

/-- The types that follow from a fact by the domain and the range of its property. -/
def typesOfFact (w : World) (f : Fact) : List (IndividualId × ClassId) :=
  let property := w.getProperty f.property
  let ofRange :=
    match f.value with
    | .individual o => (property.rangeClasses.flatMap ClassExpression.namedConjuncts).map (o, ·)
    | _ => []
  (property.domain.flatMap ClassExpression.namedConjuncts).map (f.subject, ·) ++ ofRange

/-- The types that follow from a type by the parents and the definitions of its class. -/
def typesOfType (w : World) (i : IndividualId) (c : ClassId) : List (IndividualId × ClassId) :=
  let d := w.getClass c
  (d.parents ++ d.equivalentTo.flatMap ClassExpression.namedConjuncts).map (i, ·)

/-- The individuals that may belong to an expression. -/
def candidates (w : World) : ClassExpression → List IndividualId
  | .oneOf members => members
  | _ => w.individualIds

/-- The classes with their definitions. -/
def definitions (w : World) : List (ClassId × ClassExpression) :=
  w.classIds.flatMap fun c => (w.getClass c).equivalentTo.map (c, ·)

/-- The individuals that are found to belong to a definition of their own accord. -/
def membersOfDefinition (w : World) (I : Interpretation) (c : ClassId) (e : ClassExpression) :
    List (IndividualId × ClassId) :=
  let view := w.assertedView I
  ((w.candidates e).filter fun i => !I.hasType i c && view.member e i = .holds).map (·, c)

/-- The types that follow from facts and types. -/
def typeConsequences (w : World) (I : Interpretation) : List (IndividualId × ClassId) :=
  (I.facts.filter (!·.value.isNothing)).flatMap w.typesOfFact
    ++ I.types.flatMap (fun (i, c) => w.typesOfType i c)
    ++ w.definitions.flatMap (fun (c, e) => w.membersOfDefinition I c e)

/-! ### Rounds -/

/-- One round. -/
def saturationRound (w : World) (I : Interpretation) : Except Inconsistency Interpretation := do
  let I := I.addFacts (w.propertyConsequences I)
  let I := I.addDerived (← w.fireRules I)
  return I.addTypes (w.typeConsequences I)

end World

/-- What saturation arrived at. -/
structure Saturated where
  interpretation : Interpretation
  /-- The number of rounds. -/
  rounds : Nat
  /-- The last round added nothing. -/
  isSettled : Bool
  deriving DecidableEq, Repr, Inhabited

namespace World

/-- A round, and up to `more` others, as long as they add something; `rounds` were made before. -/
def saturateFrom (w : World) (more rounds : Nat) (I : Interpretation) :
    Except Inconsistency Saturated := do
  let next ← w.saturationRound I
  if next.size = I.size then return ⟨next, rounds + 1, true⟩
  else
    match more with
    | 0 => return ⟨next, rounds + 1, false⟩
    | more + 1 => w.saturateFrom more (rounds + 1) next

/-! ### Inconsistencies -/

/-- Two values too many, for the subject of a fact. -/
def valueClash? (w : World) (I : Interpretation) (f : Fact) : Option Inconsistency :=
  let values := I.values f.property f.subject
  let real := (values.filter (!·.isNothing)).length
  if 0 < real ∧ real < values.length then some (.closedButRelated f.subject f.property real)
  else if (w.getProperty f.property).characteristics.functional ∧ 1 < real then
    some (.severalValues f.subject f.property real)
  else none

/-- Two subjects too many, for the value of a fact. -/
def subjectClash? (w : World) (I : Interpretation) (f : Fact) : Option Inconsistency :=
  match f.value with
  | .individual o =>
    match I.subjects f.property o with
    | first :: second :: _ =>
      if (w.getProperty f.property).characteristics.inverseFunctional then
        some (.sharedValue o f.property first second)
      else none
    | _ => none
  | _ => none

/-- An individual cannot belong to an expression. -/
def excludes (i : IndividualId) : ClassExpression → Bool
  | .nothing => true
  | .oneOf members => !members.contains i
  | _ => false

/-- A definition of its class excludes the individual. -/
def typeClash? (w : World) (i : IndividualId) (c : ClassId) : Option Inconsistency :=
  if (w.getClass c).equivalentTo.any (excludes i) then some (.notListed i c) else none

/-- The first inconsistency of an interpretation. -/
def clash? (w : World) (I : Interpretation) : Option Inconsistency :=
  I.facts.findSome? (w.valueClash? I)
    <|> I.facts.findSome? (w.subjectClash? I)
    <|> I.types.findSome? (fun (i, c) => w.typeClash? i c)

/-- Rounds until nothing is added or there were `maxRounds` of them, but at least one, and then
the test for inconsistencies. -/
def saturate (w : World) (maxRounds : Nat) (I : Interpretation) :
    Except Inconsistency Saturated := do
  let result ← w.saturateFrom (maxRounds - 1) 0 I
  match w.clash? result.interpretation with
  | some e => .error e
  | none => return result

end World

end Ontology
