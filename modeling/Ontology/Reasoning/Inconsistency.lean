import Ontology.Expression.Outline
import Ontology.World

/-!
# Inconsistencies

Individuals with different names are different, and every individual has a name.

## Main definitions

* `Inconsistency` — why an ontology has no model.
* `Inconsistency.message` — its text.
-/

namespace Ontology

/-- Why an ontology has no model. -/
inductive Inconsistency where
  /-- A rule demands that two different values are the same. -/
  | identified (rule : String) (a b : Value)
  /-- A rule demands that a value differs from itself. -/
  | separated (rule : String) (a : Value)
  /-- There are values besides the marker that there is none. -/
  | closedButRelated (s : IndividualId) (p : PropertyId) (count : Nat)
  /-- A functional property has several values. -/
  | severalValues (s : IndividualId) (p : PropertyId) (count : Nat)
  /-- A value of an inverse functional property has several subjects. -/
  | sharedValue (o : IndividualId) (p : PropertyId) (first second : IndividualId)
  /-- An instance is not among the listed members of its class. -/
  | notListed (i : IndividualId) (c : ClassId)
  /-- A restriction fails whatever the open values are. -/
  | violated (s : IndividualId) (p : PropertyId)
  /-- No choice of the open values satisfies all restrictions. -/
  | noModel
  deriving DecidableEq, Repr, Inhabited

namespace Inconsistency

/-- The name of an individual between grave accents. -/
def nameOf (w : World) (i : IndividualId) : String :=
  "\x60" ++ (w.getIndividual i).name ++ "\x60"

/-- The name of a property between grave accents. -/
def propertyOf (w : World) (p : PropertyId) : String :=
  "\x60" ++ (w.getProperty p).name ++ "\x60"

/-- A value in messages. -/
def valueText (w : World) : Value → String
  | .individual i => nameOf w i
  | .literal l => l.display
  | .expression e => e.outline

/-- What is wrong, in words. -/
def problem (w : World) : Inconsistency → String
  | .identified rule a b =>
    "rule \x60" ++ rule ++ "\x60 identifies distinct individuals " ++ valueText w a ++ " and "
      ++ valueText w b
  | .separated rule a => "rule \x60" ++ rule ++ "\x60 separates " ++ valueText w a ++ " from itself"
  | .closedButRelated s p count =>
    nameOf w s ++ " has no " ++ propertyOf w p ++ " by assertion but is related to "
      ++ toString count ++ " value(s)"
  | .severalValues s p count =>
    nameOf w s ++ " has " ++ toString count ++ " values for functional property " ++ propertyOf w p
  | .sharedValue o p first second =>
    nameOf w o ++ " is the value of inverse functional property " ++ propertyOf w p ++ " for both "
      ++ nameOf w first ++ " and " ++ nameOf w second
  | .notListed i c =>
    nameOf w i ++ " is an instance of \x60" ++ (w.getClass c).name
      ++ "\x60 but not one of its enumerated members"
  | .violated s p => nameOf w s ++ " violates a restriction on " ++ propertyOf w p
  | .noModel => "no finite model satisfies the asserted restrictions"

/-- The text of an inconsistency. -/
def message (w : World) (e : Inconsistency) : String :=
  "Inconsistent ontology: " ++ e.problem w

end Inconsistency

end Ontology
