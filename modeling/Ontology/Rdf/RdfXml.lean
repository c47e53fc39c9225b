import Ontology.Rdf.Collected
import Ontology.Rdf.Lexical
import Ontology.Rdf.Xml

/-!
# RDF/XML

Elements stand for nodes and for predicates by turns.  A document is read event by event, with a
stack of what the open elements stand for.

## Main definitions

* `Directions` — what the attributes of an element say.
* `Role`, `Frame` — what an open element stands for.
* `Assembly`, `event` — what has been read, and what an event adds to it.
* `RdfXml.read?` — the triples of a document.
* `RdfXml.write?` — the document of a graph.
-/

namespace Ontology.Rdf.RdfXml

/-! ### Names -/

/-- A name without a colon. -/
def isPlainName (text : String) : Bool :=
  match text.toList with
  | c :: rest => (isNameLetter c || c = '_') && rest.all fun c => isNameChar c || c = '.'
  | [] => false

/-- The names of the graph vocabulary that no node has as its class. -/
def forbiddenElements : List String :=
  ["about", "aboutEach", "aboutEachPrefix", "bagID", "datatype", "ID", "li", "nodeID", "parseType",
    "RDF", "resource"].map (rdf.space ++ ·)

/-- The names of the graph vocabulary that no attribute has. -/
def forbiddenAttributes : List String :=
  ["aboutEach", "aboutEachPrefix", "li", "RDF"].map (rdf.space ++ ·)

/-! ### Attributes -/

/-- What elements inherit: the base of references and the language of texts. -/
structure Context where
  base : Option String := none
  language : Option String := none

/-- What the attributes of an element say. -/
structure Directions where
  context : Context
  /-- The name of the node or of the statement. -/
  id : Option String := none
  /-- The label of a blank node. -/
  label : Option String := none
  about : Option String := none
  resource : Option String := none
  datatype : Option String := none
  type : Option String := none
  parseType : Option String := none
  /-- Predicates with their texts. -/
  values : List (String × String) := []

namespace Directions

/-- Takes note of an attribute that says how elements are read. -/
def noteXml? (d : Directions) (key value : String) : Option Directions :=
  match key with
  | "xml:lang" =>
    if isLanguageTag value then
      some { d with context := { d.context with language := some value.toLower } }
    else none
  | "xml:base" =>
    if isIri value then some { d with context := { d.context with base := some value } } else none
  | _ => some d

/-- Takes note of an attribute by its full name. -/
def noteNamed? (d : Directions) (name value : String) : Option Directions :=
  if forbiddenAttributes.contains name then none
  else if name = rdf.space ++ "about" then some { d with about := some value }
  else if name = rdf.space ++ "resource" then some { d with resource := some value }
  else if name = rdf.space ++ "datatype" then some { d with datatype := some value }
  else if name = rdf.type then some { d with type := some value }
  else if name = rdf.space ++ "ID" then
    if isPlainName value then some { d with id := some ("#" ++ value) } else none
  else if name = rdf.space ++ "nodeID" then
    if isPlainName value then some { d with label := some value } else none
  else if name = rdf.space ++ "bagID" then if isPlainName value then some d else none
  else if isIri name then some { d with values := d.values ++ [(name, value)] }
  else none

/-- Takes note of the attributes of an element. -/
def noteAll? (entities : List (String × String)) (spaces : Xml.Spaces) (d : Directions) :
    List (String × String) → Option Directions
  | [] => some d
  | (key, written) :: rest => do
    let d ←
      if key.startsWith "xml" then
        if key = "xml:lang" ∨ key = "xml:base" then
          d.noteXml? key (← Xml.unescape? entities written)
        else some d
      else do
        let name ← Xml.unescape? entities (← Xml.attributeName? spaces key)
        if name = rdf.space ++ "parseType" then some { d with parseType := some written }
        else d.noteNamed? name (← Xml.unescape? entities written)
    noteAll? entities spaces d rest

/-- The IRI of a reference; without a base it has to be absolute. -/
def absolute? (d : Directions) (reference : String) : Option String :=
  match d.context.base with
  | some base => resolveIri? base reference
  | none => if isIri reference then some reference else none

/-- The directions with absolute IRIs for their references. -/
def resolve? (d : Directions) : Option Directions := do
  let resolved (reference : Option String) : Option (Option String) :=
    match reference with
    | some reference => (d.absolute? reference).map some
    | none => some none
  return { d with
    id := ← resolved d.id
    about := ← resolved d.about
    resource := ← resolved d.resource
    datatype := ← resolved d.datatype
    type := ← resolved d.type }

end Directions

/-! ### Open elements -/

/-- A triple that still lacks its object. -/
structure Statement where
  subject : Resource
  predicate : String
  /-- The IRI of the statement itself. -/
  name : Option String

/-- What stands inside the element of a predicate. -/
inductive Content where
  | text (value : String)
  | node (r : Resource)

/-- What an open element stands for. -/
inductive Role where
  /-- The whole document. -/
  | root
  /-- A node; `members` counts those that have been added to it as to a container. -/
  | node (subject : Resource) (members : Nat)
  /-- A predicate with one object. -/
  | property (s : Statement) (content : Option Content) (datatype : Option String)
  /-- A predicate with a collection; the latest item comes first. -/
  | collection (s : Statement) (items : List Resource)
  /-- A predicate with a document as its object, if that counts; `depth` elements are open in
  it. -/
  | document (s : Statement) (counts : Bool) (text : String) (depth : Nat)

/-- An open element. -/
structure Frame where
  role : Role
  context : Context := {}

/-- What has been read of a document. -/
structure Assembly where
  /-- The open elements, the innermost first. -/
  opened : List Frame := []
  entities : List (String × String) := Xml.standardEntities
  /-- The names that have been given to nodes and statements. -/
  names : List String := []
  collected : Collected := {}

/-- A step of reading. -/
abbrev Assembler := StateT Assembly Option

/-- The document is not as it should be. -/
def missing {α : Type} : Assembler α := fun _ => none

/-- A new blank node. -/
def newNode : Assembler Resource :=
  modifyGet fun a => (a.collected.newNode.1, { a with collected := a.collected.newNode.2 })

/-- Adds a triple. -/
def emit (subject : Resource) (predicate : String) (object : Term) : Assembler Unit :=
  modify fun a => { a with collected := a.collected.add subject predicate object }

/-- Opens an element. -/
def enter (frame : Frame) : Assembler Unit :=
  modify fun a => { a with opened := frame :: a.opened }

/-- Changes what the innermost element stands for. -/
def revise (role : Role) : Assembler Unit :=
  modify fun a =>
    { a with
      opened := match a.opened with
        | frame :: rest => { frame with role } :: rest
        | [] => [] }

/-- Adds a triple with the given object, and triples about it if it has a name. -/
def finish (s : Statement) (object : Term) : Assembler Unit := do
  if let some name := s.name then
    emit (.iri name) rdf.type (.iri rdf.statement)
    emit (.iri name) rdf.subject (.resource s.subject)
    emit (.iri name) rdf.predicate (.iri s.predicate)
    emit (.iri name) rdf.object object
  emit s.subject s.predicate object

/-- A text in the language of the context. -/
def Context.literal (c : Context) (value : String) : Literal :=
  match c.language with
  | some tag => .tagged value tag
  | none => .plain value

/-- States what the attributes of a node say about it. -/
def emitValues (d : Directions) (subject : Resource) : Assembler Unit := do
  d.values.forM fun (predicate, value) =>
    emit subject predicate (.literal (d.context.literal value))
  if let some type := d.type then emit subject rdf.type (.iri type)

/-- Adds the cells of a collection, of which `rest` is the end; the latest item comes first. -/
def emitCells (rest : Term) : List Resource → Assembler Term
  | [] => pure rest
  | item :: others => do
    let cell ← newNode
    emit cell rdf.first (.resource item)
    emit cell rdf.rest rest
    emitCells (.resource cell) others

/-! ### Events -/

/-- Opens an element that stands for a node of a class. -/
def openNode (d : Directions) (name : String) : Assembler Unit := do
  if forbiddenElements.contains name || !isIri name then missing
  let subject ← match d.id, d.label, d.about with
    | some iri, none, none | none, none, some iri => pure (Resource.iri iri)
    | none, some label, none => pure (.blank (.written label))
    | none, none, none => newNode
    | _, _, _ => missing
  emitValues d subject
  if name ≠ rdf.description then emit subject rdf.type (.iri name)
  enter { role := .node subject 0, context := d.context }

/-- Opens an element that stands for a predicate. -/
def openProperty (d : Directions) (s : Statement) : Assembler Unit := do
  match d.parseType with
  | none =>
    let object ← match d.resource, d.label with
      | some iri, none => pure (some (Resource.iri iri))
      | none, some label => pure (some (.blank (.written label)))
      | none, none => if d.values.isEmpty then pure none else some <$> newNode
      | some _, some _ => missing
    if let some r := object then emitValues d r
    enter { role := .property s (object.map .node) d.datatype, context := d.context }
  | some "Resource" =>
    let r ← newNode
    finish s (.resource r)
    enter { role := .node r 0, context := d.context }
  | some "Collection" => enter { role := .collection s [], context := d.context }
  | some parseType =>
    enter { role := .document s (parseType = "Literal") "" 0, context := d.context }

/-- The directions of an element inside others, whose name must be new if it has one. -/
def directions (attributes : List (String × String)) (spaces : Xml.Spaces) :
    Assembler Directions := do
  let a ← get
  let context := (a.opened.head?.map Frame.context).getD {}
  let d ← Directions.noteAll? a.entities spaces { context } attributes
  let d ← d.resolve?
  if let some name := d.id then
    if a.names.contains name then missing
    set { a with names := name :: a.names }
  return d

/-- A tag as a text. -/
def tagText (name : String) (attributes : List (String × String)) : String :=
  "<" ++ name
    ++ String.join (attributes.map fun (key, value) => " " ++ key ++ "=\"" ++ value ++ "\"")
    ++ ">"

/-- An element opens. -/
def start (written : String) (attributes : List (String × String)) (spaces : Xml.Spaces) :
    Assembler Unit := do
  let a ← get
  match a.opened.head?.map Frame.role with
  | some (.document s counts text depth) =>
    revise (.document s counts (text ++ tagText written attributes) (depth + 1))
  | role =>
    let name ← Xml.unescape? a.entities (← Xml.elementName? spaces written)
    let d ← directions attributes spaces
    match role with
    | none =>
      if name = rdf.space ++ "RDF" then enter { role := .root, context := d.context }
      else openNode d name
    | some (.node subject members) =>
      if name = rdf.li then
        revise (.node subject (members + 1))
        let predicate := rdf.space ++ "_" ++ toString (members + 1)
        openProperty d { subject, predicate, name := d.id }
      else if forbiddenElements.contains name || name = rdf.description || !isIri name then missing
      else openProperty d { subject, predicate := name, name := d.id }
    | some _ => openNode d name

/-- A text is blank. -/
def isBlank (text : String) : Bool :=
  text.toList.all Xml.isSpace

/-- The element of a predicate has an object already, which further content would replace. -/
def Content.isSettled : Content → Bool
  | .node _ => true
  | .text value => !isBlank value

/-- A node ends inside the innermost element. -/
def attach (r : Resource) : Assembler Unit := do
  match (← get).opened.head?.map Frame.role with
  | some (.property s content datatype) =>
    if content.any Content.isSettled then missing
    else revise (.property s (some (.node r)) datatype)
  | some (.collection s items) => revise (.collection s (r :: items))
  | _ => pure ()

/-- The innermost element ends. -/
def close (frame : Frame) : Assembler Unit := do
  match frame.role with
  | .root => pure ()
  | .node subject _ => attach subject
  | .property s content datatype =>
    let literal (value : String) : Term :=
      .literal (datatype.elim (frame.context.literal value) (.typed value))
    finish s (match content with
      | some (.node r) => .resource r
      | some (.text value) => literal value
      | none => literal "")
  | .collection s items => finish s (← emitCells (.iri rdf.nil) items)
  | .document s counts text _ =>
    if counts then
      if text.isEmpty then missing
      else finish s (.literal (.typed text rdf.xmlLiteral))

/-- An element closes. -/
def stop (written : String) : Assembler Unit := do
  match (← get).opened with
  | [] => missing
  | { role := .document s counts text (depth + 1), .. } :: _ =>
    revise (.document s counts (text ++ "</" ++ written ++ ">") depth)
  | frame :: opened =>
    modify fun a => { a with opened }
    close frame

/-- A text stands in the innermost element; `isBlank` tells whether it was written as blanks. -/
def addText (text : String) (isBlank : Bool) : Assembler Unit := do
  match (← get).opened.head?.map Frame.role with
  | some (.document s counts before depth) =>
    revise (.document s counts (before ++ Xml.escape text) depth)
  | some (.property s content datatype) =>
    if !content.any Content.isSettled then revise (.property s (some (.text text)) datatype)
    else if !isBlank then missing
  | _ => if !isBlank then missing

/-- A text behind blanks. -/
def trimStart (cs : List Char) : List Char :=
  cs.dropWhile Char.isWhitespace

/-- The entity that a part of a document type declares, behind its keyword: a name and a value
between double quotes, in which the entities so far may be used. -/
def entity? (entities : List (String × String)) (cs : List Char) : Option (String × String) := do
  let cs := match trimStart cs with
    | '%' :: rest => trimStart rest
    | cs => cs
  let name := cs.takeWhile (!Char.isWhitespace ·)
  let '"' :: rest := trimStart (cs.drop name.length) | none
  let value := rest.takeWhile (· ≠ '"')
  let '"' :: rest := rest.drop value.length | none
  let '>' :: _ := trimStart rest | none
  return (String.ofList name, ← Xml.unescape? entities (String.ofList value))

/-- The entities after some parts of a document type, the standard ones before later ones before
earlier ones. -/
def declareAll? (entities : List (String × String)) :
    List (List Char) → Option (List (String × String))
  | [] => some entities
  | part :: rest => do
    if "!ENTITY".toList.isPrefixOf part then
      let e ← entity? entities (part.drop 7)
      let n := Xml.standardEntities.length
      declareAll? (entities.take n ++ e :: entities.drop n) rest
    else declareAll? entities rest

/-- What an event adds. -/
def event : Xml.Event → Assembler Unit
  | .start name attributes spaces => start name attributes spaces
  | .stop name => stop name
  | .text written => do
    addText (← Xml.unescape? (← get).entities written) (isBlank written)
  | .data text => addText text (isBlank text)
  | .documentType text => do
    let a ← get
    set { a with entities := ← declareAll? a.entities (splitAtChar '<' text.toList).tail }

/-- The triples of a document, in its order. -/
def read? (text : String) : Option (List Triple) := do
  let (_, a) ← ((← Xml.events? text).forM event).run {}
  return a.collected.triples

/-! ### Writing -/

/-- The predicates that no document can hold, as elements of their names mean something else. -/
def reserved : List String :=
  ["Description", "li", "RDF", "ID", "about", "parseType", "resource", "nodeID", "datatype"].map
    (rdf.space ++ ·)

/-- The longest end of an IRI that is a name. -/
def nameTail (iri : String) : String :=
  let tail := (iri.toList.reverse.takeWhile isNameChar).reverse
  String.ofList (tail.dropWhile fun c => !(isNameLetter c || c = '_'))

/-- The name of the element of a predicate, with the declaration of its space. -/
def elementTag (predicate : String) : String × String :=
  let name := nameTail predicate
  let space := String.ofList (predicate.toList.take (predicate.length - name.length))
  if name.isEmpty then ("p:", " xmlns:p=\"" ++ Xml.escape predicate ++ "\"")
  else if space = Xml.declarationSpace then ("xmlns:" ++ name, "")
  else (name, " xmlns=\"" ++ Xml.escape space ++ "\"")

/-- The element of a triple. -/
def element (t : Triple) : String :=
  let (name, declaration) := elementTag t.predicate
  let subject := match t.subject with
    | .iri iri => " rdf:about=\"" ++ Xml.escape iri ++ "\""
    | .blank label => " rdf:nodeID=\"" ++ label.text ++ "\""
  let start := "<" ++ name ++ declaration
  let stop := "</" ++ name ++ ">"
  let object := match t.object with
    | .resource (.iri iri) => start ++ " rdf:resource=\"" ++ Xml.escape iri ++ "\"/>"
    | .resource (.blank label) => start ++ " rdf:nodeID=\"" ++ label.text ++ "\"/>"
    | .literal (.tagged value language) =>
      start ++ " xml:lang=\"" ++ language ++ "\">" ++ Xml.escape value ++ stop
    | .literal (.typed value datatype) =>
      if datatype = xsd.string then start ++ ">" ++ Xml.escape value ++ stop
      else
        start ++ " rdf:datatype=\"" ++ Xml.escape datatype ++ "\">" ++ Xml.escape value ++ stop
  "\t<rdf:Description" ++ subject ++ ">\n\t\t" ++ object ++ "\n\t</rdf:Description>\n"

/-- The document of a list of triples, unless one of their predicates is reserved. -/
def write? (ts : List Triple) : Option String :=
  if ts.any fun t => reserved.contains t.predicate then none
  else
    some ("<?xml version=\"1.0\" encoding=\"UTF-8\"?>\n<rdf:RDF xmlns:rdf=\"" ++ rdf.space
      ++ "\">\n" ++ String.join (ts.map element) ++ "</rdf:RDF>\n")

end Ontology.Rdf.RdfXml
