import Ontology.Rdf.Reading

/-!
# N3

Triples with formulas, paths and predicates in either direction.  A formula stands for a blank node,
and its triples count like the others; variables may be written, but no triple may hold one.

## Main definitions

* `N3.Node`, `N3.Verb` — what the parts of statements stand for.
* `N3.read?` — the triples of a text.
-/

namespace Ontology.Rdf.N3

open Reader

/-- What a part of a statement stands for; a variable stands for nothing. -/
abbrev Node := Option Term

/-- A predicate; an inverse one leads from objects to subjects. -/
structure Verb where
  node : Node
  isInverse : Bool := false

/-- The predicate of implications. -/
def implies : String := "http://www.w3.org/2000/10/swap/log#implies"

/-- Adds the triple that a verb makes of two nodes. -/
def relate (a : Node) (v : Verb) (b : Node) : Reader Unit :=
  match v.node, if v.isInverse then (b, a) else (a, b) with
  | some (.resource (.iri predicate)), (some (.resource subject), some object) =>
    emit subject predicate object
  | _, _ => missing

/-- The node follows no predicate but an end. -/
def isEnd : Option Token → Bool
  | some (.mark mark) => [".", "]", "\x7d", ")"].contains mark
  | _ => false

mutual

/-- The node that a token starts, with the steps that follow it; `fuel` bounds how deep it may
be. -/
def path (fuel : Nat) (t : Token) : Reader Node := do
  match fuel with
  | 0 => missing
  | fuel + 1 => steps fuel (← node fuel t)
termination_by structural fuel

/-- The end of the steps from a node. -/
def steps (fuel : Nat) (start : Node) : Reader Node := do
  match fuel with
  | 0 => missing
  | fuel + 1 =>
    let forward ← accept "!"
    if forward || (← accept "^") then
      let predicate ← node fuel (← next)
      let stop : Node := some (.resource (← newNode))
      relate start { node := predicate, isInverse := !forward } stop
      steps fuel stop
    else return start
termination_by structural fuel

/-- The node that a token starts. -/
def node (fuel : Nat) (t : Token) : Reader Node := do
  match fuel with
  | 0 => missing
  | fuel + 1 =>
    match t with
    | .variable _ => return none
    | .mark "[" =>
      if ← accept "]" then return some (.resource (← newNode))
      else
        let r : Term ← if (← peek) = some (.word "id") then do
            let _ ← next
            let some iri ← iriOf (← next) | missing
            pure (.iri iri)
          else do pure (.resource (← newNode))
        predicates fuel (some r)
        expect "]"
        return some r
    | .mark "(" => collection fuel
    | .mark "\x7b" =>
      let r ← newNode
      formula fuel
      return some (.resource r)
    | t => return some (← plainTerm t)
termination_by structural fuel

/-- The items of a collection and its end. -/
def collection (fuel : Nat) : Reader Node := do
  match fuel with
  | 0 => missing
  | fuel + 1 =>
    if ← accept ")" then return some (.iri rdf.nil)
    else
      let cell : Node := some (.resource (← newNode))
      relate cell { node := some (.iri rdf.first) } (← path fuel (← next))
      relate cell { node := some (.iri rdf.rest) } (← collection fuel)
      return cell
termination_by structural fuel

/-- The statements of a formula and its end. -/
def formula (fuel : Nat) : Reader Unit := do
  match fuel with
  | 0 => missing
  | fuel + 1 =>
    if !(← accept "\x7d") then
      let t ← next
      let ends ← match ← declaration t with
        | some ends => pure ends
        | none => do
          statement fuel t
          pure true
      if ends then
        if !(← accept "\x7d") then
          expect "."
          formula fuel
      else formula fuel
termination_by structural fuel

/-- The node that a token starts, with what is said about it. -/
def statement (fuel : Nat) (t : Token) : Reader Unit := do
  match fuel with
  | 0 => missing
  | fuel + 1 =>
    let subject ← path fuel t
    if !isEnd (← peek) then predicates fuel subject
termination_by structural fuel

/-- The predicates of a subject with their objects. -/
def predicates (fuel : Nat) (subject : Node) : Reader Unit := do
  match fuel with
  | 0 => missing
  | fuel + 1 =>
    objects fuel subject (← verb fuel (← next))
    morePredicates fuel subject
termination_by structural fuel

/-- The predicate that a token starts. -/
def verb (fuel : Nat) (t : Token) : Reader Verb := do
  match fuel with
  | 0 => missing
  | fuel + 1 =>
    match t with
    | .word "a" => return { node := some (.iri rdf.type) }
    | .word "has" => return { node := ← path fuel (← next) }
    | .word "is" =>
      let node ← path fuel (← next)
      let .word "of" ← next | missing
      return { node, isInverse := true }
    | .mark "=" => return { node := some (.iri owl.sameAs) }
    | .mark "=>" => return { node := some (.iri implies) }
    | .mark "<=" => return { node := some (.iri implies), isInverse := true }
    | .mark "<-" => return { node := ← path fuel (← next), isInverse := true }
    | t => return { node := ← path fuel t }
termination_by structural fuel

/-- The objects of a predicate. -/
def objects (fuel : Nat) (subject : Node) (v : Verb) : Reader Unit := do
  match fuel with
  | 0 => missing
  | fuel + 1 =>
    relate subject v (← path fuel (← next))
    if ← accept "," then objects fuel subject v
termination_by structural fuel

/-- Further predicates behind semicolons, of which several may stand together. -/
def morePredicates (fuel : Nat) (subject : Node) : Reader Unit := do
  match fuel with
  | 0 => missing
  | fuel + 1 =>
    if ← accept ";" then
      let t ← peek
      if t = some (.mark ";") then morePredicates fuel subject
      else if !isEnd t then predicates fuel subject
termination_by structural fuel

end

/-- All statements up to the end; `fuel` bounds their number. -/
def statements (depth : Nat) : Nat → Reader Unit
  | 0 => missing
  | fuel + 1 => do
    if (← peek).isSome then
      let t ← next
      match ← declaration t with
      | some ends => if ends then expect "."
      | none =>
        statement depth t
        expect "."
      statements depth fuel

/-- The triples of a text, in its order. -/
def read? (text : String) : Option (List Triple) :=
  (statements (4 * text.length + 8) (text.length + 1)).triples? .formulas text

end Ontology.Rdf.N3
