import Ontology.Rdf.Reading

/-!
# Turtle and TriG

Triples with abbreviations: names for IRIs, lists of predicates and objects, nodes without a label
and collections.  TriG also puts triples into graphs between braces.

## Main definitions

* `Turtle.read?` — the triples of a text, those of its graphs among them.
* `Turtle.write` — the text of a graph, with names for IRIs of the given spaces.
-/

namespace Ontology.Rdf.Turtle

open Reader

/-- The predicate of a triple. -/
def verb : Reader String := do
  match ← next with
  | .word "a" => return rdf.type
  | t =>
    let some iri ← iriOf t | missing
    return iri

mutual

/-- The node that a token starts; `fuel` bounds how deep it may be. -/
def node (fuel : Nat) (t : Token) : Reader Term := do
  match fuel with
  | 0 => missing
  | fuel + 1 =>
    match t with
    | .mark "[" =>
      let r ← newNode
      if !(← accept "]") then
        predicates fuel r
        expect "]"
      return .resource r
    | .mark "(" => collection fuel
    | t => plainTerm t
termination_by structural fuel

/-- The items of a collection and its end. -/
def collection (fuel : Nat) : Reader Term := do
  match fuel with
  | 0 => missing
  | fuel + 1 =>
    if ← accept ")" then return .iri rdf.nil
    else
      let cell ← newNode
      emit cell rdf.first (← node fuel (← next))
      emit cell rdf.rest (← collection fuel)
      return .resource cell
termination_by structural fuel

/-- The predicates of a subject with their objects. -/
def predicates (fuel : Nat) (subject : Resource) : Reader Unit := do
  match fuel with
  | 0 => missing
  | fuel + 1 =>
    objects fuel subject (← verb)
    morePredicates fuel subject
termination_by structural fuel

/-- The objects of a predicate. -/
def objects (fuel : Nat) (subject : Resource) (predicate : String) : Reader Unit := do
  match fuel with
  | 0 => missing
  | fuel + 1 =>
    emit subject predicate (← node fuel (← next))
    if ← accept "," then objects fuel subject predicate
termination_by structural fuel

/-- Further predicates behind semicolons, of which several may stand together. -/
def morePredicates (fuel : Nat) (subject : Resource) : Reader Unit := do
  match fuel with
  | 0 => missing
  | fuel + 1 =>
    if ← accept ";" then
      match ← peek with
      | some (.mark ";") => morePredicates fuel subject
      | some (.mark ".") | some (.mark "]") | some (.mark "\x7d") => pure ()
      | _ => predicates fuel subject
termination_by structural fuel

end

/-! ### Statements -/

/-- How the subject of triples is written. -/
inductive SubjectForm where
  /-- By a name or as a node that nothing is said about; it may stand for a graph too. -/
  | label
  /-- By predicates between brackets, which may be all that is said about it. -/
  | described
  | collection
  deriving DecidableEq, Repr

/-- The subject that a token starts. -/
def subject (fuel : Nat) (t : Token) : Reader (Resource × SubjectForm) := do
  match t with
  | .mark "[" =>
    let r ← newNode
    if ← accept "]" then return (r, .label)
    else
      predicates fuel r
      expect "]"
      return (r, .described)
  | .mark "(" =>
    let .resource r ← collection fuel | missing
    return (r, .collection)
  | t =>
    let .resource r ← plainTerm t | missing
    return (r, .label)

/-- What is said about a subject. -/
def description (fuel : Nat) (r : Resource) (form : SubjectForm) : Reader Unit := do
  match form, ← peek with
  | .described, some (.mark ".") | .described, some (.mark "\x7d") => pure ()
  | _, _ => predicates fuel r

/-- The triples of a graph behind its opening brace, with points between subjects. -/
def graphContent : Nat → Reader Unit
  | 0 => missing
  | fuel + 1 => do
    if !(← accept "\x7d") then
      let (r, form) ← subject fuel (← next)
      description fuel r form
      if !(← accept "\x7d") then
        expect "."
        graphContent fuel

/-- The word that announces the name of a graph. -/
def isGraphWord : Token → Bool
  | .word word => word.toUpper = "GRAPH"
  | _ => false

/-- One statement or graph; graphs are known if `graphs` holds. -/
def statement (graphs : Bool) (fuel : Nat) : Reader Unit := do
  let t ← next
  match ← declaration t with
  | some ends => if ends then expect "."
  | none =>
    if graphs && t = .mark "\x7b" then graphContent fuel
    else if graphs && isGraphWord t then
      let (_, .label) ← subject fuel (← next) | missing
      expect "\x7b"
      graphContent fuel
    else
      let (r, form) ← subject fuel t
      if graphs && form = .label && (← accept "\x7b") then graphContent fuel
      else
        description fuel r form
        expect "."

/-- All statements up to the end; `fuel` bounds their number. -/
def statements (graphs : Bool) (depth : Nat) : Nat → Reader Unit
  | 0 => missing
  | fuel + 1 => do
    if (← peek).isSome then
      statement graphs depth
      statements graphs depth fuel

/-- The triples of a text, in its order; it may hold graphs if `graphs` holds. -/
def read? (graphs : Bool) (text : String) : Option (List Triple) :=
  (statements graphs (4 * text.length + 8) (text.length + 1)).triples? .terse text

/-! ### Writing -/

/-- A local part that needs no escapes. -/
def isPlainLocal (cs : List Char) : Bool :=
  cs.head?.all (fun c => isNameLetter c || c = '_') && cs.all isNameChar

/-- An IRI by the first name of a space that fits, or in full. -/
def iriText (spaces : List (String × String)) (iri : String) : String :=
  let named := spaces.findSome? fun (name, space) =>
    let rest := iri.toList.drop space.length
    if space.toList.isPrefixOf iri.toList && isPlainLocal rest then
      some (name ++ ":" ++ String.ofList rest)
    else none
  named.getD (bracketed iri)

/-- The text of a term. -/
def termText (spaces : List (String × String)) : Term → String
  | .resource (.iri iri) => iriText spaces iri
  | .literal (.typed value datatype) =>
    if datatype = xsd.string then quoted value
    else quoted value ++ "^^" ++ iriText spaces datatype
  | t => t.text

/-- The text of a graph. -/
def write (spaces : List (String × String)) (ts : List Triple) : String :=
  String.join (spaces.map fun (name, space) =>
      "@prefix " ++ name ++ ": " ++ bracketed space ++ " .\n")
    ++ String.join (ts.map fun t =>
      termText spaces (.resource t.subject) ++ " "
        ++ (if t.predicate = rdf.type then "a" else iriText spaces t.predicate) ++ " "
        ++ termText spaces t.object ++ " .\n")

end Ontology.Rdf.Turtle
