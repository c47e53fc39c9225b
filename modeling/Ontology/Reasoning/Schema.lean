import Ontology.Reasoning.Interpretation

/-!
# Properties and their inverses

A property that is declared to be the inverse of another one is read as that one backwards, so that
both share their facts.  A relation is a property read in one direction.

## Main definitions

* `World.relation` — the relation that a property read in one direction stands for.
* `World.isFunctional` — a relation gives at most one value to an individual.
* `World.isComplete` — an individual is marked as having no further values of a relation.
-/

namespace Ontology.World

/-- The relation that a property stands for.  Of two properties that are declared to be each
other's inverse the older one stands for itself. -/
def baseRelation (w : World) (p : PropertyId) : PropertyExpression :=
  match (w.getProperty p).inverseOf with
  | none => .named p
  | some base =>
    if (w.getProperty base).inverseOf = some p ∧ p.index < base.index then .named p
    else .inverse base

/-- The relation that a property read in one direction stands for. -/
def relation (w : World) : PropertyExpression → PropertyExpression
  | .named p => w.baseRelation p
  | .inverse p => (w.baseRelation p).reversed

/-- The properties that stand for a relation. -/
def aliases (w : World) (r : PropertyExpression) : List PropertyId :=
  w.propertyIds.filter (w.baseRelation · = r)

/-- The properties declared to be the inverse of a property. -/
def inversesOf (w : World) (p : PropertyId) : List PropertyId :=
  w.propertyIds.filter fun q => (w.getProperty q).inverseOf = some p

/-- A relation gives at most one value to an individual. -/
def isFunctional (w : World) : PropertyExpression → Bool
  | .named p => (w.getProperty p).characteristics.functional
  | .inverse p => (w.getProperty p).characteristics.inverseFunctional

/-- Some property that stands for a relation is marked as having no value for an individual. -/
def isComplete (w : World) (I : Interpretation) (r : PropertyExpression) (s : IndividualId) :
    Bool :=
  (w.aliases r).any (I.isClosed · s)

end Ontology.World
