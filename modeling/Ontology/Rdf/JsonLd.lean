import Ontology.Rdf.Collected
import Ontology.Rdf.JsonContext
import Ontology.Tree.Json
import Ontology.Tree.JsonReader

/-!
# JSON-LD

Objects stand for nodes, their keys for predicates and their values for objects.  What cannot be
part of a triple is passed over.

## Main definitions

* `Collector` — readers of parts of a document.
* `JsonLd.read?` — the triples of a text.
-/

namespace Ontology.Rdf.JsonLd

/-- A reader of a part of a document. -/
abbrev Collector := StateT Collected Option

/-- The document is not as it should be. -/
def missing {α : Type} : Collector α := fun _ => none

/-- A new blank node. -/
def newNode : Collector Resource :=
  modifyGet Collected.newNode

/-- Adds a triple if its subject and its predicate can have one. -/
def emit (subject : Option Resource) (predicate : String) (object : Term) : Collector Unit :=
  match subject with
  | some subject =>
    if isIri predicate then modify (·.add subject predicate object) else pure ()
  | none => pure ()

/-- The node of an expanded text, if it can be one. -/
def resource? (text : String) : Option Resource :=
  if text.startsWith "_:" then some (.blank (.written (String.ofList (text.toList.drop 2))))
  else if isIri text then some (.iri text)
  else none

/-- The items of a value, which may be a single one. -/
def itemsOf : Tree → List Tree
  | .sequence items => items
  | .null => []
  | t => [t]

/-- The entry of an object whose key stands for a keyword. -/
def valueOf? (c : Context) (entries : List (Tree × Tree)) (keyword : String) : Option Tree :=
  entries.findSome? fun (key, value) =>
    if (key.text?.bind (c.expand? true)) = some keyword then some value else none

/-- A literal of a scalar, with its datatype or its language. -/
def scalar? (type language : Option String) (t : Tree) : Option Literal :=
  match t, type, language with
  | .string text, none, some tag => some (.tagged text tag)
  | .string text, type, _ => some (.typed text (type.getD xsd.string))
  | .bool b, type, _ => some (.typed (if b then "true" else "false") (type.getD xsd.boolean))
  | .int n, type, _ => some (.typed (toString n) (type.getD xsd.integer))
  | .float x, type, _ => some (.typed (Tree.float x).render (type.getD xsd.double))
  | _, _, _ => none

/-- The literal of an object with a value. -/
def valueObject (c : Context) (entries : List (Tree × Tree)) : Collector (List Term) := do
  let text (keyword : String) : Collector (Option String) :=
    match valueOf? c entries keyword with
    | none | some .null => pure none
    | some (.string text) => pure (some text)
    | some _ => missing
  let language ← text "@language"
  let type := (← text "@type").bind c.expandClass?
  match valueOf? c entries "@value" with
  | none | some .null => return []
  | some (.sequence _) | some (.mapping _) => missing
  | some t =>
    if language.any (!isLanguageTag ·) || type.any (!isIri ·) then return []
    else return ((scalar? type (language.map String.toLower) t).map Term.literal).toList

/-- Adds the cells of a list. -/
def emitList : List Term → Collector Term
  | [] => pure (.iri rdf.nil)
  | item :: rest => do
    let cell ← newNode
    emit (some cell) rdf.first item
    emit (some cell) rdf.rest (← emitList rest)
    return .resource cell

/-- The object that a scalar stands for as a value of a term. -/
def scalarObject (c : Context) (m : Meaning) (t : Tree) : List Term :=
  match m.type, t with
  | some "@id", .string text => (((c.expand? false text).bind resource?).map Term.resource).toList
  | some "@vocab", .string text =>
    (((c.expandClass? text).bind resource?).map Term.resource).toList
  | type, t =>
    let type := type.filter isIri
    let language := m.language.getD c.language
    ((scalar? type language t).map Term.literal).toList

/-- The subject of an object with an identity, which may be unfit for triples. -/
def subject (c : Context) (entries : List (Tree × Tree)) : Collector (Option Resource) := do
  match valueOf? c entries "@id" with
  | none => return some (← newNode)
  | some (.string text) => return (c.expand? false text).bind resource?
  | some _ => missing

/-- The classes under a key. -/
def emitTypes (c : Context) (subject : Option Resource) : List Tree → Collector Unit
  | [] => pure ()
  | .string text :: rest => do
    if let some r := (c.expandClass? text).bind resource? then
      emit subject rdf.type (.resource r)
    emitTypes c subject rest
  | _ :: _ => missing

mutual

/-- The objects that a value of a term stands for; `fuel` bounds how deep it may be. -/
def objects (fuel : Nat) (c : Context) (m : Meaning) (t : Tree) : Collector (List Term) := do
  match fuel, t with
  | 0, _ => missing
  | fuel + 1, .mapping entries => do
    let c ← match Tree.lookup? entries "@context" with
      | some t => do pure (← c.extend? t)
      | none => pure c
    if (valueOf? c entries "@value").isSome then valueObject c entries
    else
      match valueOf? c entries "@list", valueOf? c entries "@set" with
      | some items, _ => return [← emitList (← manyObjects fuel c m (itemsOf items))]
      | none, some items => manyObjects fuel c m (itemsOf items)
      | none, none => return ((← node fuel c entries).map Term.resource).toList
  | fuel + 1, .sequence items => manyObjects fuel c m items
  | _, t => return scalarObject c m t
termination_by structural fuel

/-- The objects that the values of a term stand for. -/
def manyObjects (fuel : Nat) (c : Context) (m : Meaning) (ts : List Tree) :
    Collector (List Term) := do
  match fuel, ts with
  | 0, _ => missing
  | _, [] => return []
  | fuel + 1, t :: rest => do
    let found ← objects fuel c m t
    return found ++ (← manyObjects fuel c m rest)
termination_by structural fuel

/-- The node that an object stands for, with the triples of its entries. -/
def node (fuel : Nat) (c : Context) (entries : List (Tree × Tree)) :
    Collector (Option Resource) := do
  match fuel with
  | 0 => missing
  | fuel + 1 =>
    let r ← subject c entries
    fields fuel c r entries
    return r
termination_by structural fuel

/-- The triples of the entries of an object. -/
def fields (fuel : Nat) (c : Context) (r : Option Resource) (entries : List (Tree × Tree)) :
    Collector Unit := do
  match fuel, entries with
  | 0, _ => missing
  | _, [] => pure ()
  | fuel + 1, (key, value) :: rest => do
    let name := key.text?.getD ""
    match c.expand? true name with
    | some "@type" => emitTypes c r (itemsOf value)
    | some "@graph" | some "@included" =>
      let _ ← manyObjects fuel c { target := none } (itemsOf value)
    | some "@reverse" =>
      match value with
      | .mapping entries => reversed fuel c r entries
      | _ => missing
    | some "@nest" =>
      match value with
      | .mapping entries => fields fuel c r entries
      | _ => missing
    | some predicate =>
      if predicate.toList.contains ':' then
        property fuel c r predicate ((c.terms.lookup name).getD { target := predicate }) value
    | none => pure ()
    fields fuel c r rest
termination_by structural fuel

/-- The triples of the values of a predicate. -/
def property (fuel : Nat) (c : Context) (r : Option Resource) (predicate : String) (m : Meaning)
    (value : Tree) : Collector Unit := do
  match fuel with
  | 0 => missing
  | fuel + 1 =>
    let found ←
      match value with
      | .mapping entries =>
        if m.containers.contains "@language" then
          pure (entries.flatMap fun (key, value) =>
            (itemsOf value).filterMap fun t =>
              (scalar? none (key.text?.map String.toLower) t).map Term.literal)
        else if m.containers.any (["@index", "@id", "@type", "@graph"].contains ·) then
          manyObjects fuel c m (entries.flatMap fun (_, value) => itemsOf value)
        else objects fuel c m value
      | value => objects fuel c m value
    let found ←
      if m.containers.contains "@list" then do pure [← emitList found] else pure found
    found.forM fun object =>
      match m.isReverse, object with
      | false, object => emit r predicate object
      | true, .resource other => r.forM fun r => emit (some other) predicate (.resource r)
      | true, .literal _ => missing
termination_by structural fuel

/-- The triples of predicates that lead to a node. -/
def reversed (fuel : Nat) (c : Context) (r : Option Resource) (entries : List (Tree × Tree)) :
    Collector Unit := do
  match fuel, entries with
  | 0, _ => missing
  | _, [] => pure ()
  | fuel + 1, (key, value) :: rest => do
    let name := key.text?.getD ""
    if let some predicate := c.expand? true name then
      let m : Meaning := (c.terms.lookup name).getD { target := predicate }
      property fuel c r predicate { m with isReverse := !m.isReverse } value
    reversed fuel c r rest
termination_by structural fuel

end

/-- The triples of a document, in its order; it may start with a byte order mark. -/
def read? (text : String) : Option (List Triple) := do
  let t ← Tree.ofJson? (if text.startsWith "\ufeff" then String.ofList text.toList.tail else text)
  let (_, c) ← (manyObjects (4 * text.length + 8) {} { target := none } (itemsOf t)).run {}
  return c.triples

end Ontology.Rdf.JsonLd
