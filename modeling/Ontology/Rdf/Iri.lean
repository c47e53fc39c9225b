/-!
# IRIs

## Main definitions

* `isIri` — the text is an absolute IRI.
* `resolveIri?` — a reference seen from a base IRI.
-/

namespace Ontology.Rdf

/-! ### Characters -/

/-- A hexadecimal digit. -/
def isHexDigit (c : Char) : Bool :=
  c.isDigit || ('a' ≤ c && c ≤ 'f') || ('A' ≤ c && c ≤ 'F')

/-- The code point lies in one of the ranges. -/
def inRanges (ranges : List (Nat × Nat)) (c : Char) : Bool :=
  ranges.any fun (low, high) => low ≤ c.toNat && c.toNat ≤ high

/-- The letters of other scripts that an IRI may hold. -/
def otherLetters : List (Nat × Nat) :=
  [(0xa0, 0xd7ff), (0xf900, 0xfdcf), (0xfdf0, 0xffef)]
    ++ ((List.range 13).map fun n => ((n + 1) * 0x10000, (n + 1) * 0x10000 + 0xfffd))
    ++ [(0xe1000, 0xefffd)]

/-- The private characters that the query of an IRI may hold. -/
def privateLetters : List (Nat × Nat) :=
  [(0xe000, 0xf8ff), (0xf0000, 0xffffd), (0x100000, 0x10fffd)]

/-- A character that stands for itself in every part of an IRI. -/
def isIriChar (c : Char) : Bool :=
  c.isAlphanum || "!$&'()*+,-.;=_~".toList.contains c || inRanges otherLetters c

/-- A text of accepted characters and bytes written with a percent sign. -/
def isRun (accepts : Char → Bool) : List Char → Bool
  | [] => true
  | '%' :: a :: b :: rest => isHexDigit a && isHexDigit b && isRun accepts rest
  | '%' :: _ => false
  | c :: rest => accepts c && isRun accepts rest

/-! ### Absolute IRIs -/

/-- The parts of a list between separators. -/
def splitAtChar (separator : Char) (cs : List Char) : List (List Char) :=
  cs.foldr
    (fun c parts =>
      if c = separator then [] :: parts
      else
        match parts with
        | part :: rest => (c :: part) :: rest
        | [] => [[c]])
    [[]]

/-- A decimal number of at most 255 without zeros in front. -/
def isByte (cs : List Char) : Bool :=
  !cs.isEmpty && cs.length ≤ 3 && cs.all Char.isDigit && (cs.length = 1 || cs.head? ≠ some '0')
    && cs.foldl (fun n c => n * 10 + (c.toNat - 48)) 0 ≤ 255

/-- The number of 16 bit groups of a part of an address; the last one may be written as four
bytes. -/
def groupCount? (cs : List Char) : Option Nat :=
  if cs.isEmpty then some 0
  else
    let groups := splitAtChar ':' cs
    let isGroup (g : List Char) : Bool := !g.isEmpty && g.length ≤ 4 && g.all isHexDigit
    match groups.getLast? with
    | none => none
    | some last =>
      if !(groups.dropLast.all isGroup) then none
      else if isGroup last then some groups.length
      else
        let bytes := splitAtChar '.' last
        if bytes.length = 4 && bytes.all isByte then some (groups.length + 1) else none

/-- The place of the first double colon. -/
def doubleColon? : List Char → Option Nat
  | ':' :: ':' :: _ => some 0
  | _ :: rest => (doubleColon? rest).map (· + 1)
  | [] => none

/-- An address of eight groups, some of which a double colon may stand for. -/
def isAddress (cs : List Char) : Bool :=
  match doubleColon? cs with
  | none => groupCount? cs = some 8
  | some n =>
    match groupCount? (cs.take n), groupCount? (cs.drop (n + 2)) with
    | some a, some b => !(cs.take n).contains '.' && a + b ≤ 7
    | _, _ => false

/-- An address of a later version. -/
def isLaterAddress : List Char → Bool
  | v :: rest =>
    (v = 'v' || v = 'V') && !(rest.takeWhile isHexDigit).isEmpty
      && match rest.dropWhile isHexDigit with
        | '.' :: cs => !cs.isEmpty && cs.all fun c => (c.toNat < 128 && isIriChar c) || c = ':'
        | _ => false
  | [] => false

/-- Nothing, or digits behind a colon. -/
def isHostNumber : List Char → Bool
  | [] => true
  | c :: digits => c = ':' && digits.all Char.isDigit

/-- A host and the number behind it. -/
def isHost (cs : List Char) : Bool :=
  match cs with
  | '[' :: rest =>
    let address := rest.takeWhile (· ≠ ']')
    match rest.dropWhile (· ≠ ']') with
    | _ :: tail => (isAddress address || isLaterAddress address) && isHostNumber tail
    | [] => false
  | cs => isRun isIriChar (cs.takeWhile (· ≠ ':')) && isHostNumber (cs.dropWhile (· ≠ ':'))

/-- A user, if any, a host and the number behind it. -/
def isAuthority (cs : List Char) : Bool :=
  let before := cs.takeWhile fun c => c ≠ '@' && c ≠ '['
  match cs.drop before.length with
  | '@' :: host => isRun (fun c => isIriChar c || c = ':') before && isHost host
  | _ => isHost cs

/-- The parts of an IRI or of a reference: the scheme, the authority, the path, the query and the
fragment. -/
structure IriParts where
  scheme : Option (List Char) := none
  authority : Option (List Char) := none
  path : List Char := []
  query : Option (List Char) := none
  fragment : Option (List Char) := none

namespace IriParts

/-- The parts of a text without its scheme. -/
def ofReference (scheme : Option (List Char)) (cs : List Char) : IriParts :=
  let beforeFragment := cs.takeWhile (· ≠ '#')
  let fragment := (cs.drop beforeFragment.length).tail?
  let beforeQuery := beforeFragment.takeWhile (· ≠ '?')
  let query := (beforeFragment.drop beforeQuery.length).tail?
  match beforeQuery with
  | '/' :: '/' :: rest =>
    let authority := rest.takeWhile (· ≠ '/')
    { scheme, authority := some authority, path := rest.drop authority.length, query, fragment }
  | path => { scheme, path, query, fragment }

/-- The parts of a text: it has a scheme if a colon follows a name. -/
def ofList (cs : List Char) : IriParts :=
  let name := cs.takeWhile fun c => c.isAlphanum || c = '+' || c = '-' || c = '.'
  match name, cs.drop name.length with
  | first :: _, ':' :: rest =>
    if first.isAlpha then ofReference (some name) rest else ofReference none cs
  | _, _ => ofReference none cs

/-- The text of the parts. -/
def toList (p : IriParts) : List Char :=
  p.scheme.elim [] (· ++ [':']) ++ p.authority.elim [] ('/' :: '/' :: ·) ++ p.path
    ++ p.query.elim [] ('?' :: ·) ++ p.fragment.elim [] ('#' :: ·)

/-- Every part holds only characters that it may hold. -/
def isValid (p : IriParts) : Bool :=
  let isPathChar (c : Char) : Bool := isIriChar c || c = ':' || c = '@' || c = '/'
  p.authority.all isAuthority && isRun isPathChar p.path
    && p.query.all (isRun fun c => isPathChar c || c = '?' || inRanges privateLetters c)
    && p.fragment.all (isRun fun c => isPathChar c || c = '?')

end IriParts

/-- The text is an absolute IRI. -/
def isIri (text : String) : Bool :=
  let parts := IriParts.ofList text.toList
  parts.scheme.isSome && parts.isValid

/-! ### References

Only the path that a reference adds is tidied; the steps in the path of the base stay as they
are. -/

/-- A path without its last segment and the slash before it; paths are held last character
first. -/
def dropSegment (path : List Char) : List Char :=
  (path.dropWhile (· ≠ '/')).drop 1

/-- A path that a segment is going to follow. -/
def openSegment (rooted : Bool) (path : List Char) : List Char :=
  if rooted || !path.isEmpty then '/' :: path else path

/-- A path at the end of a segment: the steps `.` and `..` are taken. -/
def closeSegment (rooted : Bool) (path : List Char) (isLast : Bool) : List Char :=
  match path with
  | '.' :: '.' :: '/' :: _ => openSegment rooted (dropSegment (dropSegment path))
  | '.' :: '/' :: _ => openSegment rooted (dropSegment path)
  | _ => if isLast then path else '/' :: path

/-- Adds the characters of a reference to a path. -/
def extendPath (rooted : Bool) (path : List Char) : List Char → List Char
  | [] => (closeSegment rooted path true).reverse
  | c :: rest =>
    extendPath rooted (if c = '/' then closeSegment rooted path false else c :: path) rest

/-- The parts of a reference seen from a base. -/
def IriParts.resolve (base reference : IriParts) : IriParts :=
  if reference.scheme.isSome || reference.authority.isSome then
    { reference with
      scheme := reference.scheme.or base.scheme
      path := extendPath reference.authority.isSome [] reference.path }
  else if reference.path.isEmpty then
    { base with query := reference.query.or base.query, fragment := reference.fragment }
  else
    let rooted := base.authority.isSome
    let path :=
      if reference.path.head? = some '/' then extendPath rooted [] reference.path
      else
        extendPath rooted (openSegment rooted (dropSegment base.path.reverse)) reference.path
    { base with path, query := reference.query, fragment := reference.fragment }

/-- A reference seen from a base IRI. -/
def resolveIri? (base reference : String) : Option String :=
  let parts := IriParts.ofList reference.toList
  let iri := String.ofList ((IriParts.ofList base.toList).resolve parts).toList
  if reference.toList.head? ≠ some ':' && parts.isValid && isIri iri then some iri else none

end Ontology.Rdf
