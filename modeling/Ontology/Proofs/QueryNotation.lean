import Mathlib.Data.List.Forall2
import Ontology.Query.Reader

/-!
# The notation of queries

A query text is a list of declarations, what is asked for, and a group of blocks.  A block gives
the properties of a subject with semicolons between, and the objects of a property with commas
between.  Here this is said by syntax trees, without regard to how a query is read, and what a tree
says is a list of triples, each written out.

## Main definitions

* `Separated` — one or more elements with a token between.
* `NameNotation`, `ObjectNotation` — how IRIs and objects are written.
* `PropertyNotation`, `BlockNotation`, `GroupNotation`, `QueryNotation` — syntax trees, each with
  its `tokens`.
* `TripleNotation`, `QueryNotation.triples` — the triples that a query lists.
* `QueryNotation.writtenOut` — the query with a block of its own for each triple.
* `TripleNotation.Means`, `DeclarationNotation.Declares`, `QueryNotation.Means` — what all this
  stands for.

## Main results

* `QueryNotation.triples_writtenOut` — writing out a query does not change its triples.
* `QueryNotation.means_writtenOut` — **nor what it means.**
-/

namespace Ontology

/-! ### Lists with separators -/

/-- One or more elements. -/
inductive Separated (α : Type) where
  | last (a : α)
  | more (a : α) (rest : Separated α)

namespace Separated

variable {α β : Type}

/-- The elements in their order. -/
def toList : Separated α → List α
  | last a => [a]
  | more a rest => a :: rest.toList

/-- The tokens of the elements with a token between. -/
def tokens (separator : QueryToken) (f : α → List QueryToken) : Separated α → List QueryToken
  | last a => f a
  | more a rest => f a ++ separator :: rest.tokens separator f

/-- Other elements in place of each one. -/
def map (f : α → β) : Separated α → Separated β
  | last a => last (f a)
  | more a rest => more (f a) (rest.map f)

/-- The elements of one list behind those of another one. -/
def append : Separated α → Separated α → Separated α
  | last a, other => more a other
  | more a rest, other => more a (rest.append other)

/-- A list in place of each element. -/
def bind (f : α → Separated β) : Separated α → Separated β
  | last a => f a
  | more a rest => (f a).append (rest.bind f)

@[simp] theorem toList_map (f : α → β) (xs : Separated α) :
    (xs.map f).toList = xs.toList.map f := by
  induction xs with
  | last a => rfl
  | more a rest ih => rw [map, toList, toList, ih, List.map_cons]

@[simp] theorem toList_append (xs ys : Separated α) :
    (xs.append ys).toList = xs.toList ++ ys.toList := by
  induction xs with
  | last a => rfl
  | more a rest ih => rw [append, toList, toList, ih, List.cons_append]

@[simp] theorem toList_bind (f : α → Separated β) (xs : Separated α) :
    (xs.bind f).toList = xs.toList.flatMap fun a => (f a).toList := by
  induction xs with
  | last a => rw [bind, toList, List.flatMap_singleton]
  | more a rest ih => rw [bind, toList_append, ih, toList, List.flatMap_cons]

end Separated

/-! ### Terms -/

/-- How an IRI is written: as a reference between angle brackets or as a shortened name. -/
inductive NameNotation where
  | reference (text : String)
  | shortened (name : String)

/-- The token of an IRI. -/
def NameNotation.token : NameNotation → QueryToken
  | reference text => .iri text
  | shortened name => .shortened name

/-- How a subject is written. -/
inductive SubjectNotation where
  | variable (text : String)
  | name (x : NameNotation)

/-- The token of a subject. -/
def SubjectNotation.token : SubjectNotation → QueryToken
  | .variable text => .variable text
  | .name x => x.token

/-- How a predicate is written; there is a word for the type of something. -/
inductive PredicateNotation where
  | variable (text : String)
  | name (x : NameNotation)
  | typeWord

/-- The token of a predicate. -/
def PredicateNotation.token : PredicateNotation → QueryToken
  | .variable text => .variable text
  | .name x => x.token
  | .typeWord => .typeWord

/-- How an object is written: a text may have a language or a datatype. -/
inductive ObjectNotation where
  | variable (text : String)
  | name (x : NameNotation)
  | text (raw : String)
  | tagged (raw tag : String)
  | typed (raw : String) (datatype : NameNotation)
  | integer (text : String)
  | decimal (text : String)
  | double (text : String)
  | truth (value : Bool)

/-- The tokens of an object. -/
def ObjectNotation.tokens : ObjectNotation → List QueryToken
  | .variable v => [.variable v]
  | .name x => [x.token]
  | .text raw => [.quoted raw]
  | .tagged raw tag => [.quoted raw, .language tag]
  | .typed raw datatype => [.quoted raw, .doubleCaret, datatype.token]
  | .integer digits => [.integer digits]
  | .decimal digits => [.decimal digits]
  | .double digits => [.double digits]
  | .truth true => [.trueWord]
  | .truth false => [.falseWord]

/-- A triple that is written out. -/
structure TripleNotation where
  subject : SubjectNotation
  predicate : PredicateNotation
  object : ObjectNotation

/-! ### Blocks -/

/-- A predicate and its objects. -/
structure PropertyNotation where
  predicate : PredicateNotation
  objects : Separated ObjectNotation

namespace PropertyNotation

def tokens (p : PropertyNotation) : List QueryToken :=
  p.predicate.token :: p.objects.tokens .comma ObjectNotation.tokens

/-- The triples of a property of a subject. -/
def triples (s : SubjectNotation) (p : PropertyNotation) : List TripleNotation :=
  p.objects.toList.map fun o => ⟨s, p.predicate, o⟩

end PropertyNotation

/-- A subject and its properties; there may be a semicolon behind the last one. -/
structure BlockNotation where
  subject : SubjectNotation
  properties : Separated PropertyNotation
  hasSemicolon : Bool

namespace BlockNotation

def tokens (b : BlockNotation) : List QueryToken :=
  b.subject.token :: (b.properties.tokens .semicolon PropertyNotation.tokens
    ++ if b.hasSemicolon then [.semicolon] else [])

def triples (b : BlockNotation) : List TripleNotation :=
  b.properties.toList.flatMap (PropertyNotation.triples b.subject)

/-- The block of one triple. -/
def ofTriple (t : TripleNotation) : BlockNotation where
  subject := t.subject
  properties := .last ⟨t.predicate, .last t.object⟩
  hasSemicolon := false

/-- A block for each triple, without semicolons and commas. -/
def writtenOut (b : BlockNotation) : Separated BlockNotation :=
  b.properties.bind fun p => p.objects.map fun o => ofTriple ⟨b.subject, p.predicate, o⟩

@[simp] theorem triples_ofTriple (t : TripleNotation) : (ofTriple t).triples = [t] := rfl

theorem flatMap_triples_writtenOut (b : BlockNotation) :
    b.writtenOut.toList.flatMap triples = b.triples := by
  rw [writtenOut, Separated.toList_bind, List.flatMap_assoc]
  refine List.flatMap_congr fun p _ => ?_
  rw [Separated.toList_map, List.flatMap_map]
  simp only [triples_ofTriple]
  exact List.flatMap_pure_eq_map _ _

end BlockNotation

/-- What stands between the braces: nothing, or blocks with points between; there may be a point
behind the last one. -/
inductive GroupNotation where
  | empty
  | blocks (bs : Separated BlockNotation) (hasPoint : Bool)

namespace GroupNotation

def tokens : GroupNotation → List QueryToken
  | empty => []
  | blocks bs hasPoint => bs.tokens .dot BlockNotation.tokens ++ if hasPoint then [.dot] else []

def triples : GroupNotation → List TripleNotation
  | empty => []
  | blocks bs _ => bs.toList.flatMap BlockNotation.triples

@[simp] theorem tokens_last (b : BlockNotation) (hasPoint : Bool) :
    (blocks (.last b) hasPoint).tokens = b.tokens ++ if hasPoint then [.dot] else [] := rfl

@[simp] theorem tokens_more (b : BlockNotation) (bs : Separated BlockNotation)
    (hasPoint : Bool) :
    (blocks (.more b bs) hasPoint).tokens = b.tokens ++ .dot :: (blocks bs hasPoint).tokens := by
  rw [tokens, tokens, Separated.tokens, List.append_assoc, List.cons_append]

@[simp] theorem triples_last (b : BlockNotation) (hasPoint : Bool) :
    (blocks (.last b) hasPoint).triples = b.triples :=
  List.flatMap_singleton _ _

@[simp] theorem triples_more (b : BlockNotation) (bs : Separated BlockNotation)
    (hasPoint : Bool) :
    (blocks (.more b bs) hasPoint).triples = b.triples ++ (blocks bs hasPoint).triples := rfl

/-- A block for each triple. -/
def writtenOut : GroupNotation → GroupNotation
  | empty => empty
  | blocks bs hasPoint => blocks (bs.bind BlockNotation.writtenOut) hasPoint

@[simp] theorem triples_writtenOut (g : GroupNotation) : g.writtenOut.triples = g.triples := by
  cases g with
  | empty => rfl
  | blocks bs hasPoint =>
    rw [writtenOut, triples, triples, Separated.toList_bind, List.flatMap_assoc]
    exact List.flatMap_congr fun b _ => b.flatMap_triples_writtenOut

/-- A block with a semicolon and a comma makes three blocks. -/
example :
    (blocks (.last ⟨.variable "x", .more ⟨.typeWord, .last (.name (.shortened ":Person"))⟩
      (.last ⟨.name (.shortened ":knows"), .more (.variable "y") (.last (.variable "z"))⟩),
      false⟩) true).writtenOut.tokens =
    [.variable "x", .typeWord, .shortened ":Person", .dot,
      .variable "x", .shortened ":knows", .variable "y", .dot,
      .variable "x", .shortened ":knows", .variable "z", .dot] := rfl

end GroupNotation

/-! ### Queries -/

/-- A declaration of a name for a space, or of the base. -/
inductive DeclarationNotation where
  | space (name reference : String)
  | base (reference : String)

/-- The name of a space is followed by a colon. -/
def DeclarationNotation.tokens : DeclarationNotation → List QueryToken
  | space name reference => [.prefixWord, .shortened (name ++ ":"), .iri reference]
  | base reference => [.baseWord, .iri reference]

/-- What is asked for: everything, or one or more variables. -/
inductive ProjectionNotation where
  | all
  | named (first : String) (others : List String)

namespace ProjectionNotation

def tokens : ProjectionNotation → List QueryToken
  | all => [.star]
  | named first others => .variable first :: others.map .variable

def projection : ProjectionNotation → Projection
  | all => .all
  | named first others => .named (first :: others)

end ProjectionNotation

/-- A query as it is written. -/
structure QueryNotation where
  declarations : List DeclarationNotation
  isDistinct : Bool
  projection : ProjectionNotation
  /-- The word in front of the group may be left out. -/
  hasWhere : Bool
  group : GroupNotation

namespace QueryNotation

def tokens (x : QueryNotation) : List QueryToken :=
  x.declarations.flatMap DeclarationNotation.tokens ++
    .selectWord :: ((if x.isDistinct then [.distinctWord] else []) ++ x.projection.tokens ++
      (if x.hasWhere then [.whereWord] else []) ++ .leftBrace :: (x.group.tokens ++ [.rightBrace]))

def triples (x : QueryNotation) : List TripleNotation :=
  x.group.triples

/-- The query with a block of its own for each triple, without semicolons and commas. -/
def writtenOut (x : QueryNotation) : QueryNotation :=
  { x with group := x.group.writtenOut }

/-- Writing out a query does not change its triples. -/
@[simp] theorem triples_writtenOut (x : QueryNotation) : x.writtenOut.triples = x.triples :=
  x.group.triples_writtenOut

end QueryNotation

/-! ### Meaning of terms -/

/-- The characters behind a backslash, with what they stand for. -/
def QueryToken.escapes : List (Char × Char) :=
  [('n', '\n'), ('t', '\t'), ('r', '\r'), ('b', '\x08'), ('f', '\x0c'), ('"', '"'), ('\'', '\''),
    ('\\', '\\')]

/-- A quoted text stands for its characters, except for those behind a backslash. -/
inductive QueryToken.Spells : List Char → List Char → Prop where
  | nil : Spells [] []
  | plain {c : Char} {cs value : List Char} (hc : c ≠ '\\') (h : Spells cs value) :
      Spells (c :: cs) (c :: value)
  | escape {e c : Char} {cs value : List Char} (he : (e, c) ∈ escapes) (h : Spells cs value) :
      Spells ('\\' :: e :: cs) (c :: value)

/-- The IRI that a name stands for, which has to be one.  A reference with a colon stands for
itself, any other one is put behind the base.  In a shortened name the part in front of the first
colon stands for a space; a name without a colon belongs to the space that has no name. -/
inductive NameNotation.Names (n : QueryNames) : NameNotation → String → Prop where
  | absolute {text : String} (hcolon : ':' ∈ text.toList) (h : Rdf.isIri text = true) :
      Names n (.reference text) text
  | relative {text base : String} (hcolon : ':' ∉ text.toList) (hbase : n.base = some base)
      (h : Rdf.isIri (base ++ text) = true) : Names n (.reference text) (base ++ text)
  | shortened {space localPart iri : String} (hcolon : ':' ∉ space.toList)
      (hspace : n.spaces.lookup space = some iri) (h : Rdf.isIri (iri ++ localPart) = true) :
      Names n (.shortened (space ++ ":" ++ localPart)) (iri ++ localPart)
  | bare {localPart iri : String} (hcolon : ':' ∉ localPart.toList)
      (hspace : n.spaces.lookup "" = some iri) (h : Rdf.isIri (iri ++ localPart) = true) :
      Names n (.shortened localPart) (iri ++ localPart)

/-- What a subject stands for. -/
inductive SubjectNotation.Means (n : QueryNames) : SubjectNotation → PatternTerm → Prop where
  | variable (text : String) : Means n (.variable text) (.variable text)
  | name {x : NameNotation} {iri : String} (h : x.Names n iri) : Means n (.name x) (.iri iri)

/-- What a predicate stands for. -/
inductive PredicateNotation.Means (n : QueryNames) : PredicateNotation → PatternTerm → Prop where
  | variable (text : String) : Means n (.variable text) (.variable text)
  | name {x : NameNotation} {iri : String} (h : x.Names n iri) : Means n (.name x) (.iri iri)
  | typeWord : Means n .typeWord (.iri Rdf.rdf.type)

/-- What an object stands for. -/
inductive ObjectNotation.Means (n : QueryNames) : ObjectNotation → PatternTerm → Prop where
  | variable (text : String) : Means n (.variable text) (.variable text)
  | name {x : NameNotation} {iri : String} (h : x.Names n iri) : Means n (.name x) (.iri iri)
  | text {raw : String} {value : List Char} (h : QueryToken.Spells raw.toList value) :
      Means n (.text raw) (.literal (.plain (String.ofList value)))
  | tagged {raw tag : String} {value : List Char} (h : QueryToken.Spells raw.toList value)
      (htag : Rdf.isLanguageTag tag = true) :
      Means n (.tagged raw tag) (.literal (.tagged (String.ofList value) tag.toLower))
  | typed {raw iri : String} {value : List Char} {datatype : NameNotation}
      (h : QueryToken.Spells raw.toList value) (hdatatype : datatype.Names n iri) :
      Means n (.typed raw datatype) (.literal (.typed (String.ofList value) iri))
  | integer (text : String) : Means n (.integer text) (.literal (.typed text Rdf.xsd.integer))
  | decimal (text : String) : Means n (.decimal text) (.literal (.typed text Rdf.xsd.decimal))
  | double (text : String) : Means n (.double text) (.literal (.typed text Rdf.xsd.double))
  | truth (value : Bool) : Means n (.truth value)
      (.literal (.typed (if value then "true" else "false") Rdf.xsd.boolean))

/-- A triple stands for a pattern. -/
structure TripleNotation.Means (n : QueryNames) (t : TripleNotation)
    (p : TriplePattern) : Prop where
  subject : t.subject.Means n p.subject
  predicate : t.predicate.Means n p.predicate
  object : t.object.Means n p.object

/-! ### Meaning of queries -/

/-- Declarations take effect one after the other.  The rows are the spaces that they declare. -/
inductive DeclarationNotation.Declares : QueryNames → List DeclarationNotation →
    List (String × String) → QueryNames → Prop where
  | nil (n : QueryNames) : Declares n [] [] n
  | space {n n' : QueryNames} {name reference iri : String} {ds : List DeclarationNotation}
      {rows : List (String × String)} (hiri : (NameNotation.reference reference).Names n iri)
      (h : Declares { n with spaces := (name, iri) :: n.spaces } ds rows n') :
      Declares n (.space name reference :: ds) ((name, iri) :: rows) n'
  | base {n n' : QueryNames} {reference iri : String} {ds : List DeclarationNotation}
      {rows : List (String × String)} (hiri : (NameNotation.reference reference).Names n iri)
      (h : Declares { n with base := some iri } ds rows n') :
      Declares n (.base reference :: ds) rows n'

/-- The rows of declared spaces, the last one of each name. -/
def SelectQuery.declaredRows (rows : List (String × String)) : List (String × String) :=
  rows.foldl (fun declared row => SelectQuery.declare declared row.1 row.2) []

/-- A notation means a query: its declarations settle what names stand for, and its triples stand
for the patterns, one by one in their order. -/
structure QueryNotation.Means (spaces : List (String × String)) (x : QueryNotation)
    (q : SelectQuery) : Prop where
  names : ∃ n rows, DeclarationNotation.Declares { spaces } x.declarations rows n ∧
    q.declared = SelectQuery.declaredRows rows ∧
    List.Forall₂ (TripleNotation.Means n) x.triples q.patterns
  isDistinct : q.isDistinct = x.isDistinct
  projection : q.projection = x.projection.projection

/-- **Writing out a query does not change what it means.** -/
theorem QueryNotation.means_writtenOut {spaces : List (String × String)} {x : QueryNotation}
    {q : SelectQuery} : x.writtenOut.Means spaces q ↔ x.Means spaces q := by
  constructor
  · rintro ⟨⟨n, rows, hnames, hrows, hpatterns⟩, hdistinct, hprojection⟩
    rw [triples_writtenOut] at hpatterns
    exact ⟨⟨n, rows, hnames, hrows, hpatterns⟩, hdistinct, hprojection⟩
  · rintro ⟨⟨n, rows, hnames, hrows, hpatterns⟩, hdistinct, hprojection⟩
    refine ⟨⟨n, rows, hnames, hrows, ?_⟩, hdistinct, hprojection⟩
    rwa [triples_writtenOut]

end Ontology
