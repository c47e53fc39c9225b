import Ontology.Reasoning.Saturation
import Ontology.Reasoning.Search

/-!
# Reasoning over finite models

Saturation and search take turns: what all models have in common is added to what is known, until
the models add nothing.

## Main definitions

* `World.reason` — what is known in the end.
* `World.infer` — the part of it that is not stated.
-/

namespace Ontology

/-- How far reasoning has come. -/
structure Reasoning where
  interpretation : Interpretation
  /-- The models found by the last search. -/
  models : Nat := 0
  /-- No search stopped early. -/
  isExhaustive : Bool := true
  /-- The rounds of all saturations. -/
  rounds : Nat := 0
  deriving DecidableEq, Repr, Inhabited

namespace World

/-- Adds what all models have in common and what follows from it, in at most `passes` searches. -/
def addCommonFacts (w : World) (options : InferenceOptions) :
    Nat → Reasoning → Except Inconsistency Reasoning
  | 0, r => .ok r
  | passes + 1, r => do
    let problem := w.searchProblem r.interpretation
    if problem.constraints.isEmpty then return r
    else
      let outcome ← problem.solve options.maxModels
      if outcome.isCapped then
        return { r with models := outcome.models, isExhaustive := false }
      else
        let next := r.interpretation.addFacts outcome.entailed
        if next.size = r.interpretation.size then return { r with models := outcome.models }
        else
          let s ← w.saturate options.maxIterations next
          w.addCommonFacts options passes {
            interpretation := s.interpretation
            models := outcome.models
            rounds := r.rounds + s.rounds }

/-- How often the models can add facts, as each time there is a new pair of individuals related by
a property, and one more search to find that they do not. -/
def maxPasses (w : World) : Nat :=
  w.individuals.size * w.individuals.size * w.properties.size + 1

/-- What is known when the models add nothing any more. -/
def reason (w : World) (options : InferenceOptions) : Except Inconsistency Reasoning := do
  let s ← w.saturate options.maxIterations w.interpretation
  w.addCommonFacts options w.maxPasses
    { interpretation := s.interpretation, rounds := s.rounds }

/-- The value is among those that are asked for. -/
def InferenceOptions.wants (options : InferenceOptions) : Value → Bool
  | .literal _ => options.inferDataPropertyValues
  | .individual _ | .expression _ => options.inferPropertyValues

/-- What is known beyond what is stated. -/
def infer (w : World) (options : InferenceOptions) : Except Inconsistency InferenceReport := do
  let r ← w.reason options
  return {
    inferredTypes := r.interpretation.types.filter fun (i, c) =>
      .named c ∉ (w.getIndividual i).isA
    inferredFacts := r.interpretation.facts.filter fun f =>
      InferenceOptions.wants options f.value && f.value ∉ w.assertedValues f.subject f.property
    models := r.models
    exhaustive := r.isExhaustive
    iterations := r.rounds }

end World

end Ontology
