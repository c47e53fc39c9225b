import Ontology.World

/-!
# What a reasoner adds

## Main definitions

* `InferenceOptions`, `InferenceReport` — what a reasoner is asked for and what it found.
* `World.applyInference` — merges a report into the inferred types and values; what is stated
  stays as it is.
-/

namespace Ontology

/-- What a reasoner is asked for. -/
structure InferenceOptions where
  /-- Report values other than literals. -/
  inferPropertyValues : Bool := true
  /-- Report literals. -/
  inferDataPropertyValues : Bool := true
  /-- How many models are enumerated before the search gives up. -/
  maxModels : Nat := 64
  /-- How many rounds a saturation may take. -/
  maxIterations : Nat := 10000
  /-- Trace the search. -/
  debug : Bool := false
  deriving DecidableEq, Repr, Inhabited

/-- A value that a property has for an individual. -/
structure Fact where
  subject : IndividualId
  property : PropertyId
  value : Value
  deriving DecidableEq, Repr, Inhabited

/-- What a reasoner found. -/
structure InferenceReport where
  inferredTypes : List (IndividualId × ClassId) := []
  inferredFacts : List Fact := []
  /-- The models found by the last search. -/
  models : Nat := 0
  /-- No search stopped early. -/
  exhaustive : Bool := true
  /-- The rounds of all saturations. -/
  iterations : Nat := 0
  deriving DecidableEq, Repr, Inhabited

namespace World

/-- Adds an inferred type that is neither stated nor inferred yet. -/
def inferType (w : World) (i : IndividualId) (c : ClassId) : World :=
  w.modifyIndividual i fun d =>
    if .named c ∈ d.isA ∨ c ∈ d.inferredTypes then d
    else { d with inferredTypes := d.inferredTypes ++ [c] }

/-- Adds an inferred value that is neither stated nor inferred yet. -/
def inferFact (w : World) (f : Fact) : World :=
  w.modifyIndividual f.subject fun d =>
    if f.value ∈ d.facts.get f.property ∨ f.value ∈ d.inferredFacts.get f.property then d
    else { d with inferredFacts := d.inferredFacts.push f.property f.value }

/-- Merges a report into the inferred types and values. -/
def applyInference (w : World) (r : InferenceReport) : World :=
  r.inferredFacts.foldl inferFact (r.inferredTypes.foldl (fun w (i, c) => w.inferType i c) w)

end World

end Ontology
