import Ontology.Yaml.Scan
import Ontology.Yaml.Node

/-!
# YAML documents

A text holds one document, whose nodes are read from its tokens by recursive descent.

## Main definitions

* `Yaml.Reading` — reading tokens, with the anchors seen so far.
* `Reading.node` — the node that comes next.
* `Yaml.document` — the tree of a text.
-/

namespace Ontology.Yaml

/-- How deep collections may be nested. -/
def maxDepth : Nat := 127

/-- How many aliases may be followed for each event of a document. -/
def aliasesPerEvent : Nat := 100

/-- The state of the reader. -/
structure ReadState where
  /-- The tokens still to be read. -/
  tokens : List Token
  anchors : Anchors
  /-- How many scalars, aliases, and starts and ends of collections have been read. -/
  events : Nat
  /-- The expansions of the tag handles declared for the document. -/
  handles : List (String × List UInt8)
  /-- A `%YAML` line has been read. -/
  versioned : Bool

/-- Reading tokens. -/
abbrev Reading (α : Type) := StateT ReadState (Except Fault) α

namespace Reading

/-- The next token. -/
def peek : Reading (Option Token) := do
  return (← get).tokens.head?

/-- Moves over a token. -/
def skip : Reading Unit :=
  modify fun s => { s with tokens := s.tokens.drop 1 }

/-- Moves over a token if it is the given one. -/
def accept (t : Token) : Reading Bool := do
  if (← peek) = some t then
    skip
    return true
  else return false

/-- Moves over the given token, which has to come next. -/
def expect (t : Token) : Reading Unit := do
  if !(← accept t) then throw .unexpectedToken

/-! ### Node properties -/

/-- The bytes of the full form of a tag. -/
def fullTag (handle : String) (suffix : List UInt8) : Reading (List UInt8) := do
  if handle.isEmpty then
    return suffix
  match (← get).handles.lookup handle with
  | some expansion => return expansion ++ suffix
  | none =>
    if handle = "!" then return "!".toUTF8.data.toList ++ suffix
    else if handle = "!!" then return coreTag.toUTF8.data.toList ++ suffix
    else throw .unknownHandle

/-- Reads an anchor, if there is one. -/
def takeAnchor : Reading (Option String) := do
  match ← peek with
  | some (.anchor name) =>
    skip
    return some name
  | _ => return none

/-- Reads the bytes of a tag, if there is one. -/
def takeTag : Reading (Option (List UInt8)) := do
  match ← peek with
  | some (.tag handle suffix) =>
    skip
    return some (← fullTag handle suffix)
  | _ => return none

/-- The properties of a node: an anchor and a tag in either order. -/
structure Properties where
  anchor : Option String
  /-- The bytes of the tag in its full form. -/
  tag : Option (List UInt8)

/-- There is an anchor or a tag. -/
def Properties.present (p : Properties) : Bool :=
  p.anchor.isSome || p.tag.isSome

/-- Reads the properties of a node. -/
def takeProperties : Reading Properties := do
  let before ← takeAnchor
  let tag ← takeTag
  let anchor ← if before.isSome then pure before else takeAnchor
  return { anchor, tag }

/-- Declares the anchor of a node that starts here, if it has one. -/
def openAnchor (name : Option String) : Reading (Option Nat) :=
  match name with
  | none => return none
  | some name =>
    modifyGet fun s =>
      let (number, anchors) := s.anchors.declare name
      (some number, { s with anchors })

/-- Notes the node of an anchor that has been read to its end. -/
def closeAnchor (number : Option Nat) (node : Node) : Reading Unit :=
  match number with
  | some number => modify fun s => { s with anchors := s.anchors.complete number node }
  | none => pure ()

/-- Counts events. -/
def count (events : Nat) : Reading Unit :=
  modify fun s => { s with events := s.events + events }

/-- A scalar. -/
def scalar (tag : Option (List UInt8)) (plain : Bool) (text : String) : Reading Node := do
  count 1
  return .scalar (tag.bind Tag.ofBytes?) plain text

/-- A missing value. -/
def missing : Reading Node := do
  count 1
  return .missing

/-- A collection, with the way to read what is in it. -/
def collection (depth : Nat) (tag : Option (List UInt8)) (build : Option Tag → α → Node)
    (read : Nat → Reading α) : Reading Node := do
  if depth = 0 then throw .nestedTooDeep
  count 2
  return build (tag.bind Tag.ofBytes?) (← read (depth - 1))

/-! ### Nodes -/

/-- The next token is one of those that cannot start a node where it may be left out. -/
def atOneOf (ends : List Token) : Reading Bool := do
  return (← peek).all ends.contains

mutual

/-- Reads a node.  Block collections are allowed where `block` holds, and a sequence as little
indented as the key before it where `indentless` holds.  Every call uses one unit of fuel; twice
the number of tokens is enough. -/
def node (fuel depth : Nat) (block indentless : Bool) : Reading Node := do
  match fuel with
  | 0 => throw .unexpectedToken
  | fuel + 1 =>
    if let some (.alias name) := ← peek then
      skip
      count 1
      match (← get).anchors.slot? name with
      | some slot => return .alias slot
      | none => throw .unknownAlias
    let properties ← takeProperties
    let number ← openAnchor properties.anchor
    let value ← content fuel depth block indentless properties
    closeAnchor number value
    return value

/-- Reads what follows the properties of a node. -/
def content (fuel depth : Nat) (block indentless : Bool) (properties : Properties) :
    Reading Node := do
  match fuel with
  | 0 => throw .unexpectedToken
  | fuel + 1 =>
    let tag := properties.tag
    let leftOut : Reading Node :=
      if properties.present then scalar tag true "" else throw .unexpectedToken
    match ← peek with
    | some (.scalar plain text) =>
      skip
      scalar tag plain text
    | some .flowSequenceStart =>
      skip
      collection depth tag .sequence fun depth => flowItems fuel depth true
    | some .flowMappingStart =>
      skip
      collection depth tag .mapping fun depth => flowEntries fuel depth true
    | some .blockEntry =>
      if indentless then collection depth tag .sequence fun depth => indentlessItems fuel depth
      else leftOut
    | some .blockSequenceStart =>
      if block then
        skip
        collection depth tag .sequence fun depth => blockItems fuel depth
      else leftOut
    | some .blockMappingStart =>
      if block then
        skip
        collection depth tag .mapping fun depth => blockEntries fuel depth
      else leftOut
    | _ => leftOut

/-- Reads the items of a block sequence up to its end. -/
def blockItems (fuel depth : Nat) : Reading (List Node) := do
  match fuel with
  | 0 => throw .unexpectedToken
  | fuel + 1 =>
    if ← accept .blockEntry then
      let item ←
        if ← atOneOf [.blockEntry, .blockEnd] then missing else node fuel depth true false
      return item :: (← blockItems fuel depth)
    else
      expect .blockEnd
      return []

/-- Reads the items of a sequence that ends where no dash follows. -/
def indentlessItems (fuel depth : Nat) : Reading (List Node) := do
  match fuel with
  | 0 => throw .unexpectedToken
  | fuel + 1 =>
    if ← accept .blockEntry then
      let item ←
        if ← atOneOf [.blockEntry, .key, .value, .blockEnd] then missing
        else node fuel depth true false
      return item :: (← indentlessItems fuel depth)
    else return []

/-- Reads the entries of a block mapping up to its end. -/
def blockEntries (fuel depth : Nat) : Reading (List (Node × Node)) := do
  match fuel with
  | 0 => throw .unexpectedToken
  | fuel + 1 =>
    if ← accept .blockEnd then
      return []
    let key ←
      if ← accept .key then
        if ← atOneOf [.key, .value, .blockEnd] then missing else node fuel depth true true
      else throw .unexpectedToken
    let value ←
      if ← accept .value then
        if ← atOneOf [.key, .value, .blockEnd] then missing else node fuel depth true true
      else missing
    return (key, value) :: (← blockEntries fuel depth)

/-- Reads the items of a flow sequence up to its end.  An item may be a single entry of a
mapping. -/
def flowItems (fuel depth : Nat) (first : Bool) : Reading (List Node) := do
  match fuel with
  | 0 => throw .unexpectedToken
  | fuel + 1 =>
    if ← accept .flowSequenceEnd then
      return []
    if !first then
      expect .flowEntry
      if ← accept .flowSequenceEnd then
        return []
    let item ←
      if ← accept .key then
        collection depth none .mapping fun depth => flowPair fuel depth
      else node fuel depth false false
    return item :: (← flowItems fuel depth false)

/-- Reads the single entry of a mapping without braces.  A value mark in place of the key is
passed over. -/
def flowPair (fuel depth : Nat) : Reading (List (Node × Node)) := do
  match fuel with
  | 0 => throw .unexpectedToken
  | fuel + 1 =>
    let key ←
      if ← atOneOf [.value, .flowEntry, .flowSequenceEnd] then do
        skip
        missing
      else node fuel depth false false
    let value ←
      if ← accept .value then
        if ← atOneOf [.flowEntry, .flowSequenceEnd] then missing
        else node fuel depth false false
      else missing
    return [(key, value)]

/-- Reads the entries of a flow mapping up to its end. -/
def flowEntries (fuel depth : Nat) (first : Bool) : Reading (List (Node × Node)) := do
  match fuel with
  | 0 => throw .unexpectedToken
  | fuel + 1 =>
    if ← accept .flowMappingEnd then
      return []
    if !first then
      expect .flowEntry
      if ← accept .flowMappingEnd then
        return []
    let marked ← accept .key
    let key ←
      if marked then
        if ← atOneOf [.value, .flowEntry, .flowMappingEnd] then missing
        else node fuel depth false false
      else node fuel depth false false
    let value ←
      if marked then
        if ← accept .value then
          if ← atOneOf [.flowEntry, .flowMappingEnd] then missing
          else node fuel depth false false
        else missing
      else missing
    return (key, value) :: (← flowEntries fuel depth false)

end

/-! ### Documents -/

/-- Reads the directives before a document: at most one version, of the first major kind, and
tag handles that differ. -/
def directives (count : Nat) : Reading Bool := do
  match count with
  | 0 => return false
  | count + 1 =>
    match ← peek with
    | some (.version major minor) =>
      if (← get).versioned || major ≠ 1 || !(minor = 1 || minor = 2) then throw .badDirective
      skip
      modify fun s => { s with versioned := true }
      let _ ← directives count
      return true
    | some (.tagHandle handle expansion) =>
      if ((← get).handles.lookup handle).isSome then throw .badDirective
      skip
      modify fun s => { s with handles := (handle, expansion) :: s.handles }
      let _ ← directives count
      return true
    | _ => return false

/-- The next token ends a document. -/
def atDocumentEnd : Reading Bool := do
  match ← peek with
  | none => return true
  | some t =>
    return match t with
      | .version .. | .tagHandle .. | .documentStart | .documentEnd => true
      | _ => false

/-- Moves over document end markers. -/
def skipEnds : Reading Unit :=
  modify fun s => { s with tokens := s.tokens.dropWhile (· = .documentEnd) }

/-- Reads the whole text: at most one document. -/
def text : Reading Node := do
  let count := (← get).tokens.length
  if (← peek).isNone then
    return .missing
  let directed ← directives count
  let started ← accept .documentStart
  if directed && !started then throw .unexpectedToken
  let value ←
    if started then
      if ← atDocumentEnd then missing else node (4 * count + 4) maxDepth true false
    else if (← peek) = some .documentEnd then throw .unexpectedToken
    else node (4 * count + 4) maxDepth true false
  skipEnds
  if (← peek).isSome then throw .severalDocuments
  return value

end Reading

/-- The tree of a text. -/
def document (source : String) : Except Fault Tree := do
  let tokens ← Yaml.tokens source
  let (node, last) ← Reading.text.run
    { tokens := tokens.toList, anchors := .empty, events := 0, handles := [], versioned := false }
  (node.expand last.anchors maxDepth).run' (aliasesPerEvent * last.events)

end Ontology.Yaml
