import Ontology.Query.Syntax
import Ontology.Rdf.LanguageTag

/-!
# Reading queries

A query declares names for spaces and a base, lists the variables it asks for and gives its
patterns between braces.  Patterns with one subject may be joined by semicolons, those with one
subject and one predicate by commas.

## Main definitions

* `SelectQuery.ofText` — the query that a text stands for.
* `QueryNames` — what names and references in a query stand for.
-/

namespace Ontology

/-- Reading a query, which may fail. -/
abbrev Querying (α : Type) := Except QueryFault α

/-- What names and references in a query stand for. -/
structure QueryNames where
  /-- The spaces of names, the latest first. -/
  spaces : List (String × String) := []
  base : Option String := none
  deriving DecidableEq, Repr, Inhabited

namespace QueryNames

/-- A text that has to be an IRI. -/
def checked (text : String) : Querying String :=
  if Rdf.isIri text then .ok text else .error (.badIri text)

/-- The IRI of a reference: one without a colon is put behind the base. -/
def resolve (n : QueryNames) (reference : String) : Querying String :=
  if reference.toList.contains ':' then checked reference
  else
    match n.base with
    | some base => checked (base ++ reference)
    | none => .error (.relativeIri reference)

/-- The space of a shortened name and its local part, with the first colon between them.  Without a
colon all of it is the local part. -/
def splitName (name : String) : String × String :=
  if name.toList.contains ':' then
    (String.ofList (name.toList.takeWhile (· ≠ ':')),
      String.ofList (name.toList.dropWhile (· ≠ ':')).tail)
  else ("", name)

/-- The IRI of a shortened name. -/
def expand (n : QueryNames) (name : String) : Querying String :=
  let (space, localPart) := splitName name
  match n.spaces.lookup space with
  | some iri => checked (iri ++ localPart)
  | none => .error (.unknownSpace space)

/-- The IRI of a token that stands for one. -/
def iri? (n : QueryNames) : QueryToken → Option (Querying String)
  | .iri reference => some (n.resolve reference)
  | .shortened name => some (n.expand name)
  | _ => none

end QueryNames

namespace SelectQuery

/-- Words for what queries cannot do. -/
def unsupportedWords : List String :=
  ["FILTER", "OPTIONAL", "UNION", "MINUS", "BIND", "VALUES", "GRAPH", "SERVICE", "CONSTRUCT",
    "ASK", "DESCRIBE", "ORDER", "GROUP", "HAVING", "LIMIT", "OFFSET", "FROM", "REDUCED", "INSERT",
    "DELETE"]

/-- Fails at the first of the tokens left. -/
def fail {α : Type} (expected : String) (left : List QueryToken) : Querying α :=
  match left.head? with
  | some (.word text) =>
    if text.toUpper ∈ unsupportedWords then .error (.unsupported text.toUpper)
    else .error (.unexpected expected (some (.word text)))
  | found => .error (.unexpected expected found)

/-- The tokens left behind something that took at least one. -/
abbrev Shorter (left : List QueryToken) :=
  { rest : List QueryToken // rest.length < left.length }

/-! ### Terms -/

/-- A subject. -/
def subject (n : QueryNames) : (left : List QueryToken) → Querying (PatternTerm × Shorter left)
  | .variable name :: rest => .ok (.variable name, ⟨rest, by simp⟩)
  | t :: rest =>
    match n.iri? t with
    | some iri => do return (.iri (← iri), ⟨rest, by simp⟩)
    | none => fail "a subject" (t :: rest)
  | [] => fail "a subject" []

/-- A predicate. -/
def predicate (n : QueryNames) :
    (left : List QueryToken) → Querying (PatternTerm × Shorter left)
  | .variable name :: rest => .ok (.variable name, ⟨rest, by simp⟩)
  | .typeWord :: rest => .ok (.iri Rdf.rdf.type, ⟨rest, by simp⟩)
  | t :: rest =>
    match n.iri? t with
    | some iri => do return (.iri (← iri), ⟨rest, by simp⟩)
    | none => fail "a predicate" (t :: rest)
  | [] => fail "a predicate" []

/-- The literal of a text, with the language or the datatype that follows it. -/
def textLiteral (n : QueryNames) (value : String) :
    (left : List QueryToken) →
      Querying (Rdf.Literal × { rest : List QueryToken // rest.length ≤ left.length })
  | .language tag :: rest =>
    if Rdf.isLanguageTag tag then .ok (.tagged value tag.toLower, ⟨rest, by simp⟩)
    else .error (.badLanguage tag)
  | .doubleCaret :: t :: rest =>
    match n.iri? t with
    | some iri => do return (.typed value (← iri), ⟨rest, by simp; omega⟩)
    | none => fail "a datatype IRI" (t :: rest)
  | [.doubleCaret] => fail "a datatype IRI" []
  | rest => .ok (.plain value, ⟨rest, Nat.le_refl _⟩)

/-- An object. -/
def object (n : QueryNames) : (left : List QueryToken) → Querying (PatternTerm × Shorter left)
  | .variable name :: rest => .ok (.variable name, ⟨rest, by simp⟩)
  | .quoted text :: rest =>
    match QueryToken.unescape text.toList with
    | .error c => .error (.badEscape c)
    | .ok value => do
      let (l, ⟨rest, h⟩) ← textLiteral n (String.ofList value) rest
      return (.literal l, ⟨rest, by simp only [List.length_cons]; omega⟩)
  | .integer text :: rest => .ok (.literal (.typed text Rdf.xsd.integer), ⟨rest, by simp⟩)
  | .decimal text :: rest => .ok (.literal (.typed text Rdf.xsd.decimal), ⟨rest, by simp⟩)
  | .double text :: rest => .ok (.literal (.typed text Rdf.xsd.double), ⟨rest, by simp⟩)
  | .trueWord :: rest => .ok (.literal (.typed "true" Rdf.xsd.boolean), ⟨rest, by simp⟩)
  | .falseWord :: rest => .ok (.literal (.typed "false" Rdf.xsd.boolean), ⟨rest, by simp⟩)
  | t :: rest =>
    match n.iri? t with
    | some iri => do return (.iri (← iri), ⟨rest, by simp⟩)
    | none => fail "an object" (t :: rest)
  | [] => fail "an object" []

/-! ### Patterns -/

/-- The patterns of a subject and a predicate: one for each object, with commas between. -/
def objectPatterns (n : QueryNames) (s p : PatternTerm) (left : List QueryToken) :
    Querying (List TriplePattern × Shorter left) := do
  let (o, ⟨rest, h⟩) ← object n left
  match rest, h with
  | .comma :: rest, h =>
    let (others, ⟨rest, h'⟩) ← objectPatterns n s p rest
    return (⟨s, p, o⟩ :: others, ⟨rest, by simp only [List.length_cons] at h; omega⟩)
  | rest, h => return ([⟨s, p, o⟩], ⟨rest, h⟩)
termination_by left.length
decreasing_by simp only [List.length_cons] at h; omega

/-- The patterns of a subject: its predicates with their objects, with semicolons between. -/
def subjectPatterns (n : QueryNames) (s : PatternTerm) (left : List QueryToken) :
    Querying (List TriplePattern × Shorter left) := do
  let (p, ⟨rest, h⟩) ← predicate n left
  let (ps, ⟨rest, h'⟩) ← objectPatterns n s p rest
  match rest, h' with
  | .semicolon :: rest, h' =>
    have hs : rest.length < left.length := by simp only [List.length_cons] at h'; omega
    if rest.head? = some .dot ∨ rest.head? = some .rightBrace then return (ps, ⟨rest, hs⟩)
    else
      let (others, ⟨rest, h''⟩) ← subjectPatterns n s rest
      return (ps ++ others, ⟨rest, by omega⟩)
  | rest, h' => return (ps, ⟨rest, by omega⟩)
termination_by left.length

/-- The patterns up to the closing brace, with points between subjects. -/
def groupPatterns (n : QueryNames) (left : List QueryToken) :
    Querying (List TriplePattern × List QueryToken) :=
  match left with
  | .rightBrace :: rest => .ok ([], rest)
  | left => do
    let (s, ⟨rest, _h⟩) ← subject n left
    let (ps, ⟨rest, h'⟩) ← subjectPatterns n s rest
    match rest, h' with
    | .dot :: rest, _h' =>
      let (others, rest) ← groupPatterns n rest
      return (ps ++ others, rest)
    | .rightBrace :: rest, _ => return (ps, rest)
    | rest, _ => fail "\x60.\x60 or \x60\x7d\x60" rest
termination_by left.length
decreasing_by simp only [List.length_cons] at _h'; omega

/-! ### The parts of a query -/

/-- Adds a name for a space in front of older ones, of which it replaces that of the same name. -/
def declare (spaces : List (String × String)) (name iri : String) : List (String × String) :=
  (name, iri) :: spaces.filter (·.1 ≠ name)

/-- The name that a declaration introduces: a shortened name without a local part. -/
def spaceName? : QueryToken → Option String
  | .shortened name =>
    match name.toList.reverse with
    | ':' :: rest => some (String.ofList rest.reverse)
    | _ => none
  | _ => none

/-- Reads the declarations in front of a query. -/
def declarations (n : QueryNames) (declared : List (String × String)) :
    List QueryToken → Querying (QueryNames × List (String × String) × List QueryToken)
  | .prefixWord :: t :: .iri reference :: rest =>
    match spaceName? t with
    | some name => do
      let iri ← n.resolve reference
      declarations { n with spaces := (name, iri) :: n.spaces } (declare declared name iri) rest
    | none => fail "a prefix name" (t :: .iri reference :: rest)
  | .prefixWord :: t :: rest =>
    match spaceName? t with
    | some _ => fail "a prefix IRI" rest
    | none => fail "a prefix name" (t :: rest)
  | [.prefixWord] => fail "a prefix name" []
  | .baseWord :: .iri reference :: rest => do
    let iri ← n.resolve reference
    declarations { n with base := some iri } declared rest
  | .baseWord :: rest => fail "a base IRI" rest
  | rest => .ok (n, declared, rest)

/-- The variables at the front. -/
def variableNames : List QueryToken → List String × List QueryToken
  | .variable name :: rest =>
    let (names, rest) := variableNames rest
    (name :: names, rest)
  | rest => ([], rest)

/-- What a query asks for. -/
def readProjection : List QueryToken → Querying (Projection × List QueryToken)
  | .star :: rest => .ok (.all, rest)
  | left =>
    match variableNames left with
    | ([], rest) => fail "a variable or \x60*\x60" rest
    | (names, rest) => .ok (.named names, rest)

/-- Leaves out a token at the front; the answer tells whether it was there. -/
def accept (t : QueryToken) (left : List QueryToken) : Bool × List QueryToken :=
  if left.head? = some t then (true, left.tail) else (false, left)

/-- The query that tokens stand for. -/
def ofTokens (spaces : List (String × String)) (ts : List QueryToken) : Querying SelectQuery := do
  let (n, declared, left) ← declarations { spaces } [] ts
  match accept .selectWord left with
  | (false, left) => fail "SELECT" left
  | (true, left) =>
    let (isDistinct, left) := accept .distinctWord left
    let (projection, left) ← readProjection left
    match accept .leftBrace (accept .whereWord left).2 with
    | (false, left) => fail "\x60\x7b\x60" left
    | (true, left) =>
      let (patterns, left) ← groupPatterns n left
      if left.isEmpty then return { declared, isDistinct, projection, patterns }
      else fail "end of query" left

/-- The query that a text stands for, with names for spaces that it need not declare. -/
def ofText (spaces : List (String × String)) (text : String) : Querying SelectQuery :=
  match QueryToken.ofText text with
  | (_, some part) => .error (.stray part)
  | (ts, none) => ofTokens spaces ts

end SelectQuery

end Ontology
