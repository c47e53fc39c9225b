/-!
# Truth of statements about a partly known world

## Main definitions

* `Truth` — a statement holds, fails, or is not settled; `Truth.and`, `Truth.or` and `Truth.not`
  settle a combination as soon as its parts do.
-/

namespace Ontology

/-- Whether a statement holds. -/
inductive Truth where
  | holds
  | fails
  /-- What is known leaves both possible. -/
  | unknown
  deriving DecidableEq, Repr, Inhabited

namespace Truth

/-- The name of an answer to a question. -/
def name : Truth → String
  | holds => "True"
  | fails => "False"
  | unknown => "Unknown"

/-- A statement that is settled. -/
def ofBool (b : Bool) : Truth :=
  if b then holds else fails

/-- Both statements hold. -/
def and : Truth → Truth → Truth
  | fails, _ | _, fails => fails
  | holds, holds => holds
  | _, _ => unknown

/-- At least one of two statements holds. -/
def or : Truth → Truth → Truth
  | holds, _ | _, holds => holds
  | fails, fails => fails
  | _, _ => unknown

/-- The opposite statement. -/
def not : Truth → Truth
  | holds => fails
  | fails => holds
  | unknown => unknown

/-- The opposite of the opposite is the statement itself. -/
@[simp] theorem not_not (a : Truth) : a.not.not = a := by
  cases a <;> rfl

/-- A disjunction is the opposite of the conjunction of the opposites. -/
theorem not_and (a b : Truth) : (a.and b).not = a.not.or b.not := by
  cases a <;> cases b <;> rfl

end Truth

end Ontology
