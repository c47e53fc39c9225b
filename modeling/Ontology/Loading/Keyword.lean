import Ontology.Loading.Term

/-!
# Keywords

Every keyword inside the body of a statement has a reading that turns the tree below it into a
node.  Readings look at the shape only; what a node means is decided later.

## Main definitions

* `Node` — what a keyword holds.
* `Reading` — how a keyword is read, and `Reading.ofKeyword?`, the table of all keywords.
* `World.applyKeyword`, `World.readKeywords` — one keyword, and all keywords of a body.
-/

namespace Ontology

/-- A combination of classes or individuals. -/
inductive Combination where
  | or
  | and
  | oneOf
  deriving DecidableEq, Repr, Inhabited

/-- The word for a combination. -/
def Combination.name : Combination → String
  | .or => "Or"
  | .and => "And"
  | .oneOf => "OneOf"

/-- The values of a pair. -/
inductive PairValue where
  | single (term : Term)
  | many (terms : List Term)
  deriving DecidableEq, Repr, Inhabited

/-- The terms of a pair value. -/
def PairValue.terms : PairValue → List Term
  | .single term => [term]
  | .many terms => terms

/-- What a keyword holds. -/
inductive Node where
  | term (t : Term)
  /-- A part of the document as it was written. -/
  | raw (t : Tree)
  /-- Names with values. -/
  | pairs (entries : List (Term × PairValue))
  | list (items : List Node)
  /-- What a keyword holds, with the keyword. -/
  | container (keyword : String) (data : Node)
  | combination (kind : Combination) (items : List Node)
  deriving Repr, Inhabited

namespace Node

/-- The elements of a list; any other node is its only element. -/
def items : Node → List Node
  | .list items => items
  | .container _ data => data.items
  | n => [n]

/-- The node below a keyword. -/
def data : Node → Node
  | .container _ data => data
  | n => n

mutual

/-- The structure of a node with its constructors named. -/
def outline : Node → String
  | .term t => "Term(" ++ t.outline ++ ")"
  | .raw t => "Raw(" ++ t.outline ++ ")"
  | .pairs entries =>
    "Pairs([" ++ ", ".intercalate (entries.map fun (key, value) =>
      key.display ++ ": " ++ ", ".intercalate (value.terms.map Term.display)) ++ "])"
  | .list items => "List([" ++ ", ".intercalate (outlines items) ++ "])"
  | .container keyword data => "Container \x7b " ++ keyword ++ ", " ++ outline data ++ " \x7d"
  | .combination kind items =>
    "Connective \x7b " ++ kind.name ++ ", [" ++ ", ".intercalate (outlines items) ++ "] \x7d"
termination_by structural n => n

/-- The structures of nodes. -/
def outlines : List Node → List String
  | [] => []
  | n :: rest => outline n :: outlines rest
termination_by structural n => n

end

/-- A short text of a node for messages. -/
def describe : Node → String
  | .term t => t.display
  | .raw t => t.render
  | .container keyword _ => "<" ++ keyword ++ " container>"
  | n => n.outline

end Node

/-! ### Readings -/

/-- What is made of the elements below a keyword. -/
inductive Gathering where
  /-- Their list. -/
  | list
  /-- Their list, with the keyword. -/
  | container
  /-- A single element itself, several combined, with the keyword. -/
  | combined (kind : Combination)
  /-- Their combination. -/
  | built (kind : Combination)
  deriving DecidableEq, Repr

/-- What the elements below a keyword are. -/
inductive Element where
  /-- Names and literals. -/
  | term
  /-- Anything, kept as it was written. -/
  | raw
  /-- Mappings from names to values. -/
  | pairs
  deriving DecidableEq, Repr

/-- How the tree below a keyword is read. -/
inductive Reading where
  /-- As a whole, as it was written. -/
  | verbatim
  /-- Element by element; a string is the only element where `wraps` holds, and stands for
  itself elsewhere. -/
  | elements (gathering : Gathering) (element : Element) (wraps : Bool)
  deriving DecidableEq, Repr

/-- The readings of all keywords. -/
def Reading.table : List (String × Reading) := [
  ("types", .elements .list .term false),
  ("EquivalentTo", .elements (.combined .and) .term false),
  ("SubClassOf", .elements .list .term true),
  ("Domain", .elements (.combined .or) .term true),
  ("Range", .elements (.combined .or) .term true),
  ("Facts", .elements .container .pairs false),
  ("Characteristics", .elements .container .term false),
  ("Inverse", .elements .container .term false),
  ("annotations", .elements .list .raw true),
  ("labels", .elements .list .raw true),
  ("__rc_facts", .elements .list .pairs false),
  ("X_associatedWithClasses", .elements .list .term true),
  ("X_associatedRoles", .elements .container .pairs false),
  ("OneOf", .elements (.built .oneOf) .term false),
  ("Or", .elements (.built .or) .term false),
  ("And", .elements (.built .and) .term false),
  ("__create_proxy_individual", .verbatim)]

/-- The reading of a keyword. -/
def Reading.ofKeyword? (keyword : String) : Option Reading :=
  Reading.table.lookup keyword

/-- What the elements below a keyword amount to. -/
def Gathering.gather (keyword : String) (elements : List Node) : Gathering → Node
  | .list => .list elements
  | .container => .container keyword (.list elements)
  | .combined kind =>
    .container keyword <|
      match elements with
      | [element] => element
      | elements => .combination kind elements
  | .built kind => .combination kind elements

namespace World

/-- The value of a pair: a scalar, or a list of scalars; unknown names stand for themselves. -/
def pairValue (w : World) (entries : List (Tree × Tree)) : Tree → Loading PairValue
  | .sequence items => do return .many (← items.mapM (w.resolve true))
  | t@(.string _) | t@(.int _) | t@(.float _) | t@(.bool _) => do
    return .single (← w.resolve true t)
  | t => (LoadFault.badPairValue t.render (Tree.mapping entries).render).raise

/-- The pairs of a mapping from names to values. -/
def pairs (w : World) (entries : List (Tree × Tree)) : Loading Node := do
  let named ← Shape.stringEntries entries
  return .pairs (← named.mapM fun (key, value) => do
    return (← w.resolveName false key, ← w.pairValue entries value))

/-- An element below a keyword that has been read as a name or kept as written. -/
def plainElement (w : World) (element : Element) (t : Tree) : Loading Node :=
  match element with
  | .term => do return .term (← w.resolve false t)
  | .raw | .pairs => .ok (.raw t)

/-- An element below a keyword. -/
def element (w : World) (keyword : String) (element : Element) (t : Tree) : Loading Node := do
  let node ← w.plainElement element t
  match element with
  | .term | .raw => return node
  | .pairs =>
    match t with
    | .mapping entries => w.pairs entries
    | _ => (LoadFault.badElement keyword node.outline).raise

/-- There is no such keyword. -/
def unknownKeyword (keyword : String) (t : Tree) : Loading Node :=
  (LoadFault.keyNotFound keyword (Tree.mapping [(.string keyword, t)]).render).raise

/-- Only a verbatim keyword takes values other than sequences, mappings and strings. -/
def scalarBelow (keyword : String) (t : Tree) : Loading Node :=
  match Reading.ofKeyword? keyword with
  | none => unknownKeyword keyword t
  | some .verbatim => .ok (.raw t)
  | some (.elements ..) => (LoadFault.badKeywordValue keyword t.render).raise

mutual

/-- Reads the tree below a keyword.  A mapping holds further keywords. -/
def applyKeyword (w : World) (keyword : String) : Tree → Loading Node
  | .sequence items =>
    match Reading.ofKeyword? keyword with
    | none => unknownKeyword keyword (.sequence items)
    | some .verbatim => .ok (.raw (.sequence items))
    | some (.elements gathering element _) => do
      return gathering.gather keyword (← items.mapM (w.element keyword element))
  | .mapping entries =>
    match Reading.ofKeyword? keyword with
    | none => unknownKeyword keyword (.mapping entries)
    | some .verbatim => .ok (.raw (.mapping entries))
    | some (.elements gathering _ _) => do
      let _ ← Shape.stringEntries entries
      return gathering.gather keyword (← applyEntries w entries)
  | .string text =>
    match Reading.ofKeyword? keyword with
    | none => unknownKeyword keyword (.string text)
    | some .verbatim => .ok (.raw (.string text))
    | some (.elements gathering element wraps) =>
      if wraps then do
        return gathering.gather keyword [← w.element keyword element (.string text)]
      else w.plainElement element (.string text)
  | .null => scalarBelow keyword .null
  | .bool b => scalarBelow keyword (.bool b)
  | .int n => scalarBelow keyword (.int n)
  | .float x => scalarBelow keyword (.float x)
  | .tagged tag t => scalarBelow keyword (.tagged tag t)
termination_by structural t => t

/-- Reads the keywords of a mapping with string keys. -/
def applyEntries (w : World) : List (Tree × Tree) → Loading (List Node)
  | [] => .ok []
  | (key, value) :: rest => do
    let node ← applyKeyword w (← Shape.keyText key) value
    return node :: (← applyEntries w rest)
termination_by structural t => t

end

/-- Reads all keywords of a body.  A name that is unknown in one of them is reported with the
body. -/
def readKeywords (w : World) (entries : List (Tree × Tree)) :
    Loading (List (String × Node)) := do
  (← Shape.stringEntries entries).mapM fun (key, value) =>
    match w.applyKeyword key value with
    | .ok node => .ok (key, node)
    | .error e =>
      match e with
      | ⟨.badName (.unknown _), []⟩ =>
        .error (e.within (.keywords (Tree.mapping entries).render))
      | e => .error e

/-- Reads a mapping whose keys are names, with one keyword for all of its values. -/
def readNamed (w : World) (keyword : String) (entries : List (Tree × Tree)) :
    Loading (List (Term × Node)) := do
  (← Shape.stringEntries entries).mapM fun (key, value) => do
    return (← w.resolveName false key, ← w.applyKeyword keyword value)

end World

end Ontology
