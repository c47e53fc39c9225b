import Ontology.Reasoning.Inconsistency
import Ontology.Reasoning.Interpretation

/-!
# Rules

A rule is applied by matching the atoms of its body from left to right.

## Main definitions

* `Bindings` — values for variables.
* `Rule.matches` — the bindings under which the body holds.
* `Rule.fire`, `World.fireRules` — what the heads of a rule and of all rules add.
-/

namespace Ontology

/-- Values for variables. -/
abbrev Bindings := List (String × Value)

/-- What the head of a rule adds. -/
inductive Derived where
  | type (i : IndividualId) (c : ClassId)
  | fact (f : Fact)
  deriving DecidableEq, Repr, Inhabited

namespace Argument

/-- The value of an argument; a variable has one only if it is bound. -/
def value? (b : Bindings) : Argument → Option Value
  | .variable name => b.lookup name
  | .individual i => some (.individual i)
  | .literal l => some (.literal l)

/-- Makes an argument have a value, by binding it if it is a variable that is not bound. -/
def unify (b : Bindings) (a : Argument) (v : Value) : Option Bindings :=
  match a.value? b with
  | some bound => if bound = v then some b else none
  | none =>
    match a with
    | .variable name => some ((name, v) :: b)
    | _ => none

end Argument

namespace Atom

/-- The bindings that extend others such that an atom holds.  Two variables that are not bound are
neither the same nor different. -/
def extensions (I : Interpretation) (b : Bindings) : Atom → List Bindings
  | .type c argument =>
    match argument.value? b with
    | some (.individual i) => if I.hasType i c then [b] else []
    | some _ => []
    | none => (I.instancesOf c).filterMap fun i => argument.unify b (.individual i)
  | .fact p subject object =>
    (I.factsOf p).filterMap fun (s, v) =>
      if v.isNothing then none
      else (subject.unify b (.individual s)).bind fun b => object.unify b v
  | .same x y =>
    match x.value? b, y.value? b with
    | some u, some v => if u = v then [b] else []
    | some u, none => (y.unify b u).toList
    | none, some v => (x.unify b v).toList
    | none, none => []
  | .different x y =>
    match x.value? b, y.value? b with
    | some u, some v => if u = v then [] else [b]
    | _, _ => []

/-- What an atom of the head of a rule adds under bindings: nothing where it has a variable that is
not bound or the subject is no individual. -/
def instantiate (rule : String) (b : Bindings) : Atom → Except Inconsistency (Option Derived)
  | .type c argument =>
    match argument.value? b with
    | some (.individual i) => .ok (some (.type i c))
    | _ => .ok none
  | .fact p subject object =>
    match subject.value? b, object.value? b with
    | some (.individual s), some v => .ok (some (.fact ⟨s, p, v⟩))
    | _, _ => .ok none
  | .same x y =>
    match x.value? b, y.value? b with
    | some u, some v => if u = v then .ok none else .error (.identified rule u v)
    | _, _ => .ok none
  | .different x y =>
    match x.value? b, y.value? b with
    | some u, some v => if u = v then .error (.separated rule u) else .ok none
    | _, _ => .ok none

end Atom

/-- The bindings that extend others such that all atoms hold. -/
def matchAtoms (I : Interpretation) : List Atom → Bindings → List Bindings
  | [], b => [b]
  | a :: rest, b => (a.extensions I b).flatMap (matchAtoms I rest)

namespace Rule

/-- The bindings under which the body of a rule holds. -/
def «matches» (I : Interpretation) (r : Rule) : List Bindings :=
  matchAtoms I r.body []

/-- What a rule adds, for each match of its body in turn. -/
def fire (I : Interpretation) (r : Rule) : Except Inconsistency (List Derived) := do
  let derived ← (r.matches I).mapM fun b => r.head.mapM (·.instantiate r.name b)
  return derived.flatten.filterMap id

end Rule

/-- What all rules add, in their order. -/
def World.fireRules (w : World) (I : Interpretation) : Except Inconsistency (List Derived) := do
  return (← w.rules.toList.mapM (·.fire I)).flatten

/-- Adds what rules derived. -/
def Interpretation.addDerived (I : Interpretation) (ds : List Derived) : Interpretation :=
  ds.foldl (fun I d =>
    match d with
    | .type i c => (I.addType i c).1
    | .fact f => (I.addFact f).1) I

end Ontology
