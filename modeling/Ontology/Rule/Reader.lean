import Ontology.Loading.Error
import Ontology.Rule.Token
import Ontology.World

/-!
# Reading rules

The text of a rule is a list of atoms, an arrow and another list of atoms.  Names are those of
the ontology: a class takes one argument, a property two.

## Main definitions

* `World.readRule` — the rule that a text stands for.
-/

namespace Ontology

/-- A rule text that is being read. -/
structure RuleReader where
  /-- The ontology whose names the text uses. -/
  world : World
  source : String
  /-- The number of tokens of the text. -/
  size : Nat

namespace RuleReader

/-- Fails behind a number of tokens. -/
def fail {α : Type} (r : RuleReader) (problem : String) (position : Nat) : Loading α :=
  (LoadFault.badRule problem position r.source).raise

/-- The number of tokens before the ones that are left. -/
def before (r : RuleReader) (left : List RuleToken) : Nat :=
  r.size - left.length

/-- The number of tokens up to and including the first one that is left; the end of the text
counts as a token. -/
def through (r : RuleReader) (left : List RuleToken) : Nat :=
  match left with
  | [] => r.size + 1
  | _ :: rest => r.before rest

/-- The argument that is the first token left. -/
def argument (r : RuleReader) (left : List RuleToken) : Loading Argument :=
  match left.head? with
  | some (.variable name) => .ok (.variable name)
  | some (.quoted text) =>
    .ok (.literal (.text (String.ofList (RuleToken.unescape text.toList))))
  | some (.integer text) =>
    match text.toInt? with
    | some n =>
      if -(Nat.pow 2 63 : Int) ≤ n ∧ n < Nat.pow 2 63 then .ok (.literal (.int n))
      else r.fail "integer out of range" (r.through left)
    | none => r.fail "integer out of range" (r.through left)
  | some (.decimal text) =>
    match Binary64.ofText? text with
    | some x => .ok (.literal (.float x))
    | none => r.fail "invalid decimal" (r.through left)
  | some (.name "true") => .ok (.literal (.bool true))
  | some (.name "false") => .ok (.literal (.bool false))
  | some (.name name) =>
    match r.world.lookup? name with
    | some (.individual i) => .ok (.individual i)
    | some _ => (LoadFault.badRuleArgument name).raise
    | none => (LoadFault.badName (.unknown name)).raise
  | _ => r.fail "expected an argument" (r.through left)

/-- The tokens left behind something that took at most as many. -/
abbrev Rest (left : List RuleToken) := { rest : List RuleToken // rest.length ≤ left.length }

/-- The arguments that follow another one, each behind a comma. -/
def arguments (r : RuleReader) :
    (left : List RuleToken) → Loading (List Argument × Rest left)
  | .comma :: [] => r.fail "expected an argument" (r.size + 1)
  | .comma :: t :: rest => do
    let a ← r.argument (t :: rest)
    let (others, left) ← r.arguments rest
    return (a :: others, ⟨left.1, by have := left.2; simp only [List.length_cons]; omega⟩)
  | left => .ok ([], ⟨left, Nat.le_refl _⟩)

/-- The atom of a predicate and its arguments, which `position` tokens end with. -/
def atomOf (r : RuleReader) (predicate : String) (position : Nat) :
    List Argument → Loading Atom
  | [a] =>
    match r.world.lookup? predicate with
    | some (.class c) => .ok (.type c a)
    | some _ => (LoadFault.predicateNotClass predicate).raise
    | none => (LoadFault.badName (.unknown predicate)).raise
  | [a, b] =>
    if predicate = "sameAs" ∨ predicate = "SameAs" then .ok (.same a b)
    else if predicate = "differentFrom" ∨ predicate = "DifferentFrom" then .ok (.different a b)
    else
      match r.world.lookup? predicate with
      | some (.property p) => .ok (.fact p a b)
      | some _ => (LoadFault.predicateNotProperty predicate).raise
      | none => (LoadFault.badName (.unknown predicate)).raise
  | _ => r.fail ("`" ++ predicate ++ "` takes one or two arguments") position

/-- The tokens left behind something that took at least one. -/
abbrev Shorter (left : List RuleToken) := { rest : List RuleToken // rest.length < left.length }

/-- One atom. -/
def atom (r : RuleReader) : (left : List RuleToken) → Loading (Atom × Shorter left)
  | .name predicate :: .leftParen :: args => do
    let first ← r.argument args
    let (others, ⟨left, h⟩) ← r.arguments args.tail
    match left, h with
    | .rightParen :: rest, h =>
      let a ← r.atomOf predicate (r.before rest) (first :: others)
      return (a, ⟨rest, by simp only [List.length_cons, List.length_tail] at *; omega⟩)
    | left, _ => r.fail "expected `)`" (r.through left)
  | .name _ :: left => r.fail "expected `(`" (r.through left)
  | left => r.fail "expected a predicate name" (r.through left)

/-- The atoms that follow another one, up to an arrow or the end. -/
def moreAtoms (r : RuleReader) (left : List RuleToken) :
    Loading (List Atom × List RuleToken) :=
  match left with
  | [] => .ok ([], [])
  | .arrow :: rest => .ok ([], .arrow :: rest)
  | t :: rest =>
    if t = .comma ∨ t = .caret then do
      let (a, ⟨left, _⟩) ← r.atom rest
      let (others, left) ← r.moreAtoms left
      return (a :: others, left)
    else r.fail "expected `,` or `^` between atoms" (r.before rest)
termination_by left.length
decreasing_by simp only [List.length_cons]; omega

/-- The atoms up to an arrow or the end. -/
def atoms (r : RuleReader) (left : List RuleToken) : Loading (List Atom × List RuleToken) :=
  match left with
  | [] => .ok ([], [])
  | .arrow :: rest => .ok ([], .arrow :: rest)
  | left => do
    let (a, left) ← r.atom left
    let (others, left) ← r.moreAtoms left.1
    return (a :: others, left)

/-- The body and the head of a rule. -/
def bodyAndHead (r : RuleReader) (left : List RuleToken) : Loading (List Atom × List Atom) := do
  match ← r.atoms left with
  | (body, .arrow :: left) =>
    let (head, left) ← r.atoms left
    if left.isEmpty = false then r.fail "unexpected trailing input" (r.before left)
    else if head.isEmpty then r.fail "a rule needs at least one head atom" (r.before left)
    else return (body, head)
  | (_, left) => r.fail "expected `->`" (r.through left)

end RuleReader

/-- The rule that a text stands for. -/
def World.readRule (w : World) (name source : String) (label : Option String) : Loading Rule :=
  match Text.tokens RuleToken.read 0 source.toList with
  | (_, some stray) => (LoadFault.strayRuleText stray.text stray.offset source).raise
  | (ts, none) => do
    let (body, head) ← RuleReader.bodyAndHead ⟨w, source, ts.length⟩ ts
    return { name, label, source, body, head }

end Ontology
