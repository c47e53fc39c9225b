import Ontology.Rdf.LanguageTag
import Ontology.Rdf.Vocabulary
import Ontology.Tree

/-!
# Contexts of JSON-LD

A context tells what the keys and texts of a JSON document stand for.

## Main definitions

* `Context`, `Meaning` — a context, and what it says about a term.
* `Context.expand?` — what a text stands for.
* `Context.extend?` — a context inside an object that has one of its own.
-/

namespace Ontology.Rdf.JsonLd

/-- The words that keys and texts cannot be given a meaning for. -/
def keywords : List String :=
  ["@base", "@container", "@context", "@direction", "@graph", "@id", "@import", "@included",
    "@index", "@json", "@language", "@list", "@nest", "@none", "@prefix", "@propagate",
    "@protected", "@reverse", "@set", "@type", "@value", "@version", "@vocab"]

/-- The text looks like a keyword. -/
def looksReserved (text : String) : Bool :=
  match text.toList with
  | '@' :: rest => !rest.isEmpty && rest.all Char.isAlpha
  | _ => false

/-- What a term stands for. -/
structure Meaning where
  /-- An IRI, a blank node or a keyword; a term without one is passed over. -/
  target : Option String
  /-- Names may start with the term and a colon. -/
  isPrefix : Bool := false
  /-- The predicate leads from the values to the node. -/
  isReverse : Bool := false
  /-- The datatype of texts, or a keyword if they stand for nodes. -/
  type : Option String := none
  /-- The language of texts, if it is not the usual one. -/
  language : Option (Option String) := none
  containers : List String := []
  deriving Inhabited

/-- What keys and texts stand for. -/
structure Context where
  base : Option String := none
  /-- The space of keys that have no meaning of their own. -/
  vocabulary : Option String := none
  language : Option String := none
  terms : List (String × Meaning) := []
  deriving Inhabited

/-- The parts of a text around its first colon, which is not its first character. -/
def splitColon? (text : String) : Option (String × String) :=
  let start := text.toList.takeWhile (· ≠ ':')
  match start, text.toList.drop start.length with
  | _ :: _, _ :: rest => some (String.ofList start, String.ofList rest)
  | _, _ => none

namespace Context

/-- A text without a meaning of its own, as a name in the vocabulary or as a reference. -/
def relative? (c : Context) (isKey : Bool) (text : String) : Option String :=
  if isKey then some (c.vocabulary.elim text (· ++ text))
  else c.base.elim (some text) (resolveIri? · text)

/-- The IRI, blank node or keyword that a text stands for; keys and classes may be terms. -/
def expand? (c : Context) (isKey : Bool) (text : String) : Option String :=
  if keywords.contains text then some text
  else if looksReserved text then none
  else
    match if isKey then c.terms.lookup text else none with
    | some m => m.target
    | none =>
      match splitColon? text with
      | some (start, rest) =>
        if start = "_" || rest.startsWith "//" then some text
        else
          match c.terms.lookup start with
          | some { target := some iri, isPrefix := true, .. } => some (iri ++ rest)
          | _ => if isIri text then some text else c.relative? isKey text
      | none => c.relative? isKey text

/-- The class or datatype that a text stands for: a term, or else a reference. -/
def expandClass? (c : Context) (text : String) : Option String := do
  let found ← c.expand? true text
  if found = text && !isIri found then c.expand? false text else some found

end Context

/-! ### Extending contexts -/

/-- Names may start with a term for this IRI. -/
def endsOpen (iri : String) : Bool :=
  iri.toList.getLast?.any ":/?#[]@".toList.contains

/-- A target that a term may have. -/
def isTarget (text : String) : Bool :=
  (keywords.contains text && text ≠ "@context") || text.startsWith "_:" || isIri text

/-- A text, or nothing; any other value is wrong. -/
def textOrNull? : Tree → Option (Option String)
  | .null => some none
  | .string text => some (some text)
  | _ => none

/-- The containers that a value lists. -/
def containers? : Tree → Option (List String)
  | .null => some []
  | .string text => some [text]
  | .sequence items => items.mapM fun
    | .string text => some text
    | _ => none
  | _ => none

/-- The language under a key, in lower case; it may be taken away. -/
def languageOf? (entries : List (Tree × Tree)) : Option (Option (Option String)) := do
  match Tree.lookup? entries "@language" with
  | none => return none
  | some t =>
    let language ← textOrNull? t
    if language.all isLanguageTag then return some (language.map String.toLower) else none

/-- The keys that tell what a term stands for. -/
def meaningKeys : List String :=
  ["@id", "@reverse", "@container", "@context", "@direction", "@index", "@language", "@nest",
    "@prefix", "@protected", "@type"]

/-- The entries of what tells the meaning of a term. -/
def meaningEntries? (t : Tree) : Option (List (Tree × Tree)) :=
  match t with
  | .null => some [(.string "@id", .null)]
  | .string iri => some [(.string "@id", .string iri)]
  | .mapping entries =>
    if entries.all fun (key, _) => key.text?.any meaningKeys.contains then some entries else none
  | _ => none

/-- The target of a term: what it is said to stand for, or what it spells itself. -/
def target? (c : Context) (term : String) (written : Option String) : Option String := do
  let target ← match written with
    | some text => c.expand? true text
    | none =>
      if (splitColon? term).isSome || term.toList.contains '/' then c.expand? true term
      else c.vocabulary.map (· ++ term)
  if isTarget target then some target else none

/-- The meaning of a term from the entries that tell it. -/
def meaning? (c : Context) (term : String) (t : Tree) : Option Meaning := do
  let entries ← meaningEntries? t
  let text (key : String) : Option (Option String) :=
    (Tree.lookup? entries key).elim (some none) textOrNull?
  let type ← match ← text "@type" with
    | some type => (c.expand? true type).map some
    | none => some none
  let language ← languageOf? entries
  let containers ← (Tree.lookup? entries "@container").elim (some []) containers?
  let open? (iri : String) : Bool := match t with
    | .mapping _ => (Tree.lookup? entries "@prefix").any (· matches .bool true)
    | _ => endsOpen iri
  match Tree.lookup? entries "@reverse", Tree.lookup? entries "@id" with
  | some (.string reverse), none =>
    let target ← target? c term (some reverse)
    return { target, isReverse := true, type, language, containers }
  | some _, _ => none
  | none, some .null => return { target := none }
  | none, found =>
    let written ← found.elim (some none) textOrNull?
    let target ← target? c term written
    return { target, isPrefix := open? target, type, language, containers }

/-- The terms that the meaning of a term may refer to. -/
def references (term : String) (t : Tree) : List String :=
  let texts := match t with
    | .string text => [text]
    | .mapping entries => entries.filterMap fun (_, value) => value.text?
    | _ => []
  (term :: texts).filterMap (fun text => (splitColon? text).map Prod.fst) ++ texts

/-- Defines a term after those it refers to.  The terms that are done are listed; `fuel` bounds how
far terms refer to each other. -/
def define? (entries : List (Tree × Tree)) (fuel : Nat) (s : Context × List String)
    (term : String) : Option (Context × List String) :=
  match Tree.lookup? entries term, fuel with
  | none, _ => some s
  | some _, 0 => none
  | some t, fuel + 1 =>
    if s.2.contains term || keywords.contains term then some s
    else if looksReserved term then some (s.1, term :: s.2)
    else do
      let others := (references term t).filter (· ≠ term)
      let (c, done) ← others.foldlM (define? entries fuel)
        ({ s.1 with terms := s.1.terms.filter (·.1 ≠ term) }, s.2)
      let m ← meaning? c term t
      return ({ c with terms := (term, m) :: c.terms }, term :: done)

/-- The base under a key, seen from the base so far. -/
def baseOf? (c : Context) (t : Tree) : Option (Option String) := do
  match ← textOrNull? t with
  | none => return none
  | some text =>
    match c.base with
    | some base => return some (← resolveIri? base text)
    | none => if isIri text then return some text else none

/-- The keys of a context that are no terms. -/
def settingKeys : List String :=
  ["@base", "@direction", "@import", "@language", "@propagate", "@protected", "@version", "@vocab"]

/-- A context inside an object with the entries of a context of its own. -/
def Context.define? (c : Context) (entries : List (Tree × Tree)) : Option Context := do
  let names := entries.filterMap fun (key, _) => key.text?
  if (Tree.lookup? entries "@import").isSome
    || names.any (fun name => keywords.contains name && !settingKeys.contains name) then none
  else
    let base ← (Tree.lookup? entries "@base").elim (some c.base) (baseOf? c)
    let c := { c with base }
    let vocabulary ← match Tree.lookup? entries "@vocab" with
      | none => some c.vocabulary
      | some t => do
        match ← textOrNull? t with
        | some text => (c.expandClass? text).map some
        | none => some none
    let c := { c with vocabulary, language := (← languageOf? entries).getD c.language }
    let (c, _) ← names.foldlM (JsonLd.define? entries (entries.length + 1)) (c, [])
    return c

/-- A context inside an object with a context of its own.  Contexts elsewhere are not fetched. -/
def Context.extend? (c : Context) (t : Tree) : Option Context :=
  match t with
  | .null => some {}
  | .mapping entries => c.define? entries
  | .sequence items => items.foldlM
      (fun c t =>
        match t with
        | .null => some {}
        | .mapping entries => c.define? entries
        | _ => none) c
  | _ => none

end Ontology.Rdf.JsonLd
