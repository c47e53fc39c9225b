import Ontology.Yaml.ScalarText

/-!
# From characters to YAML tokens

Tokens are found from left to right.  Indentation opens and closes block collections, and a
scalar that turns out to stand before a colon becomes a key after the fact: the token that
announces a key is put in front of it.

## Main definitions

* `Yaml.Scanner` — the state between two tokens.
* `Yaml.tokens` — all tokens of a text.
-/

namespace Ontology.Yaml

/-- A place where a key may have started.  A key stands on one line within 1024 characters. -/
structure KeyStart where
  /-- A colon has to follow, for the place starts a line of a block mapping. -/
  required : Bool
  /-- How many tokens lie before it. -/
  token : Nat
  index : Nat
  line : Nat
  column : Nat
  deriving Repr

/-- The state between two tokens. -/
structure Scanner where
  cursor : Cursor
  /-- The tokens so far. -/
  tokens : Array Token
  /-- The column of the innermost block collection, `-1` outside of all. -/
  indent : Int
  /-- The columns of the collections around it, innermost first. -/
  outerIndents : List Int
  /-- The pending key of the innermost flow collection or, outside of all, of the block. -/
  keyStart : Option KeyStart
  /-- The pending keys around it; there is one for each flow collection. -/
  outerKeyStarts : List (Option KeyStart)
  /-- A key may start here. -/
  keyAllowed : Bool

namespace Scanner

/-- The start of a text. -/
def start (text : List Char) : Scanner where
  cursor := .start text
  tokens := #[]
  indent := -1
  outerIndents := []
  keyStart := none
  outerKeyStarts := []
  keyAllowed := true

/-- Inside a flow collection. -/
def inFlow (s : Scanner) : Bool :=
  !s.outerKeyStarts.isEmpty

/-- Adds a token. -/
def push (s : Scanner) (t : Token) : Scanner :=
  { s with tokens := s.tokens.push t }

/-- Adds a token of `count` characters. -/
def pushMark (s : Scanner) (t : Token) (count : Nat) : Scanner :=
  { s.push t with cursor := s.cursor.skip count }

/-! ### Blanks and comments -/

/-- Moves over blanks, comments and line ends.  A tab may not stand where a key may start in a
block.  A byte order mark may start a line and takes one column of it. -/
def skipToToken (s : Scanner) : Scanner :=
  let tabs := s.inFlow || !s.keyAllowed
  let marked := s.cursor.column = 0 && s.cursor.rest.head? = some '\ufeff'
  let front := if marked then s.cursor.skip 1 else s.cursor
  let cursor := (front.skipWhile fun c => c = ' ' || (tabs && c = '\t')).skipComment
  if _h : cursor.rest.head?.any isBreak ∧ cursor.nextLine.rest.length < s.cursor.rest.length then
    skipToToken { s with cursor := cursor.nextLine, keyAllowed := s.keyAllowed || !s.inFlow }
  else { s with cursor }
termination_by s.cursor.rest.length
decreasing_by exact _h.2

/-! ### Keys -/

/-- Drops a pending key; one that has to be a key is missing its colon. -/
def dropKey (s : Scanner) : Except Fault Scanner :=
  match s.keyStart with
  | some key => if key.required then .error .missingColon else .ok { s with keyStart := none }
  | none => .ok s

/-- Drops a pending key that is out of reach of the cursor. -/
def dropStaleKey (c : Cursor) : Option KeyStart → Except Fault (Option KeyStart)
  | some key =>
    if key.line < c.line ∨ key.index + 1024 < c.index then
      if key.required then .error .missingColon else .ok none
    else .ok (some key)
  | none => .ok none

/-- Drops all pending keys that are out of reach. -/
def dropStaleKeys (s : Scanner) : Except Fault Scanner := do
  let outerKeyStarts ← s.outerKeyStarts.mapM (dropStaleKey s.cursor)
  let keyStart ← dropStaleKey s.cursor s.keyStart
  return { s with keyStart, outerKeyStarts }

/-- Notes that a key may start at the cursor. -/
def noteKey (s : Scanner) : Except Fault Scanner := do
  if !s.keyAllowed then
    return s
  let s ← s.dropKey
  return { s with
    keyStart := some
      { required := !s.inFlow && s.indent == s.cursor.column
        token := s.tokens.size
        index := s.cursor.index
        line := s.cursor.line
        column := s.cursor.column } }

/-! ### Indentation -/

/-- Opens a block collection at a column right of the current one; its token goes before the
token with number `place`. -/
def openBlock (s : Scanner) (column : Nat) (place : Nat) (t : Token) : Scanner :=
  if s.inFlow ∨ (column : Int) ≤ s.indent then s
  else
    { s with
      outerIndents := s.indent :: s.outerIndents
      indent := column
      tokens := s.tokens.insertIdxIfInBounds place t }

/-- Closes the block collections right of a column. -/
def closeBlocks (s : Scanner) (column : Int) : Scanner :=
  if s.inFlow then s
  else
    let open_ := (s.indent :: s.outerIndents).takeWhile (column < ·)
    match (s.indent :: s.outerIndents).drop open_.length with
    | [] => s
    | indent :: outerIndents =>
      { s with
        indent
        outerIndents
        tokens := s.tokens ++ Array.replicate open_.length Token.blockEnd }

/-! ### Tokens with a name -/

/-- Reads the name of an anchor or alias from behind its mark. -/
def scanName (c : Cursor) : Except Fault (String × Cursor) :=
  let (name, next) := c.takeWhile isWordChar
  let ends := atGap next.rest || next.rest.head?.any (isOneOf "?:,]\x7d%@`")
  if name.isEmpty || !ends then .error .badAnchor else .ok (String.ofList name, next)

/-- A character of a tag. -/
def isTagChar (full : Bool) (c : Char) : Bool :=
  isWordChar c || isOneOf ";/?:@&=+$.!~*'()%" c || (full && isOneOf ",[]" c)

/-- The bytes that the characters of a tag stand for: a percent sign and two digits are one
byte. -/
def tagBytes : List Char → Option (List UInt8)
  | '%' :: a :: b :: rest => do
    let n ← Tree.hexNumber? [a, b]
    return n.toUInt8 :: (← tagBytes rest)
  | '%' :: _ => none
  | c :: rest => (tagBytes rest).map (c.toNat.toUInt8 :: ·)
  | [] => some []

/-- The bytes are those of characters of up to four bytes, going by the first byte of each. -/
def areCharacters : Nat → List UInt8 → Bool
  | 0, [] => true
  | 0, b :: rest =>
    if b < 0x80 then areCharacters 0 rest
    else if b &&& 0xE0 = 0xC0 then areCharacters 1 rest
    else if b &&& 0xF0 = 0xE0 then areCharacters 2 rest
    else if b &&& 0xF8 = 0xF0 then areCharacters 3 rest
    else false
  | _ + 1, [] => false
  | more + 1, b :: rest => b &&& 0xC0 = 0x80 && areCharacters more rest

/-- Reads a run of tag characters. -/
def scanTagText (full : Bool) (c : Cursor) : Except Fault (List UInt8 × Cursor) :=
  let (run, next) := c.takeWhile (isTagChar full)
  match (tagBytes run).filter (areCharacters 0) with
  | some bytes => .ok (bytes, next)
  | none => .error .badTag

/-- What counts of the bytes of a tag: those before the first zero. -/
def beforeZero (bytes : List UInt8) : List UInt8 :=
  bytes.takeWhile (· ≠ 0)

/-- Reads the handle and the suffix of a tag that starts with a single exclamation mark.  Nothing
behind the mark makes the mark itself the tag. -/
def scanShortTag (c : Cursor) : Except Fault (String × List UInt8 × Cursor) := do
  let (name, next) := (c.skip 1).takeWhile isWordChar
  if next.rest.head? = some '!' then
    let (suffix, last) ← scanTagText false (next.skip 1)
    if suffix.isEmpty then throw .badTag
    return ("!" ++ String.ofList name ++ "!", beforeZero suffix, last)
  else
    let (suffix, last) ← scanTagText false (c.skip 1)
    let suffix := beforeZero suffix
    return if suffix.isEmpty then ("", "!".toUTF8.data.toList, last) else ("!", suffix, last)

/-- Reads a tag. -/
def scanTag (flow : Bool) (c : Cursor) : Except Fault (Token × Cursor) := do
  let (handle, suffix, next) ←
    match c.rest with
    | _ :: '<' :: _ =>
      let (suffix, next) ← scanTagText true (c.skip 2)
      if suffix.isEmpty ∨ next.rest.head? ≠ some '>' then throw .badTag
      pure ("", beforeZero suffix, next.skip 1)
    | _ => scanShortTag c
  if atGap next.rest || (flow && next.rest.head? = some ',') then
    return (.tag handle suffix, next)
  else throw .badTag

/-! ### Directives -/

/-- Reads a number. -/
def scanNumber (c : Cursor) : Except Fault (Nat × Cursor) :=
  let (digits, next) := c.takeWhile Char.isDigit
  if digits.isEmpty ∨ 9 < digits.length then .error .badDirective
  else .ok (Binary64.digitsValue digits, next)

/-- Reads a tag handle: an exclamation mark, or a word between two. -/
def scanHandle (c : Cursor) : Except Fault (String × Cursor) :=
  if c.rest.head? ≠ some '!' then .error .badDirective
  else
    let (name, next) := (c.skip 1).takeWhile isWordChar
    if next.rest.head? = some '!' then .ok ("!" ++ String.ofList name ++ "!", next.skip 1)
    else if name.isEmpty then .ok ("!", next)
    else .error .badDirective

/-- Reads a directive line. -/
def scanDirective (c : Cursor) : Except Fault (Token × Cursor) := do
  let (name, next) := (c.skip 1).takeWhile isWordChar
  if !atGap next.rest then throw .badDirective
  let c := next.skipWhile isBlank
  let (token, next) ←
    if name = "YAML".toList then
      let (major, next) ← scanNumber c
      if next.rest.head? ≠ some '.' then throw .badDirective
      let (minor, next) ← scanNumber (next.skip 1)
      pure (Token.version major minor, next)
    else if name = "TAG".toList then
      let (handle, next) ← scanHandle c
      if !next.rest.head?.any isBlank then throw .badDirective
      let (expansion, next) ← scanTagText true (next.skipWhile isBlank)
      if expansion.isEmpty || !atGap next.rest then throw .badDirective
      pure (Token.tagHandle handle (beforeZero expansion), next)
    else throw .badDirective
  let last := (next.skipWhile isBlank).skipComment
  if last.rest.head?.any (!isBreak ·) then throw .badDirective
  return (token, last.nextLine)

/-! ### One token -/

/-- Ends the block collections and the pending key before a directive or a document marker. -/
def closeAll (s : Scanner) : Except Fault Scanner := do
  let s ← (s.closeBlocks (-1)).dropKey
  return { s with keyAllowed := false }

/-- Opens a flow collection. -/
def openFlow (s : Scanner) (t : Token) : Except Fault Scanner := do
  let s ← s.noteKey
  return { s.pushMark t 1 with
    keyStart := none, outerKeyStarts := s.keyStart :: s.outerKeyStarts, keyAllowed := true }

/-- Closes a flow collection. -/
def closeFlow (s : Scanner) (t : Token) : Except Fault Scanner := do
  let s ← s.dropKey
  let s := { s.pushMark t 1 with keyAllowed := false }
  match s.outerKeyStarts with
  | keyStart :: outerKeyStarts => return { s with keyStart, outerKeyStarts }
  | [] => return s

/-- Reads the dash of a block sequence. -/
def scanEntry (s : Scanner) : Except Fault Scanner := do
  if !s.inFlow && !s.keyAllowed then
    throw .misplacedEntry
  let s := s.openBlock s.cursor.column s.tokens.size .blockSequenceStart
  let s ← s.dropKey
  return { s.pushMark .blockEntry 1 with keyAllowed := true }

/-- Reads the question mark before a key. -/
def scanKey (s : Scanner) : Except Fault Scanner := do
  if !s.inFlow && !s.keyAllowed then
    throw .misplacedKey
  let s := s.openBlock s.cursor.column s.tokens.size .blockMappingStart
  let s ← s.dropKey
  return { s.pushMark .key 1 with keyAllowed := !s.inFlow }

/-- Reads the colon before a value.  A pending key gets its token now. -/
def scanValue (s : Scanner) : Except Fault Scanner := do
  match s.keyStart with
  | some key =>
    let s := { s with tokens := s.tokens.insertIdxIfInBounds key.token .key, keyStart := none }
    let s := s.openBlock key.column key.token .blockMappingStart
    return { s.pushMark .value 1 with keyAllowed := false }
  | none =>
    if !s.inFlow && !s.keyAllowed then
      throw .misplacedValue
    let s := s.openBlock s.cursor.column s.tokens.size .blockMappingStart
    return { s.pushMark .value 1 with keyAllowed := !s.inFlow }

/-- Reads a token with a name: an anchor, an alias or a tag. -/
def scanProperty (s : Scanner) (first : Char) : Except Fault Scanner := do
  let s ← s.noteKey
  let (token, cursor) ←
    if first = '!' then scanTag s.inFlow s.cursor
    else
      let (name, next) ← scanName (s.cursor.skip 1)
      pure (if first = '*' then .alias name else .anchor name, next)
  return { s.push token with cursor, keyAllowed := false }

/-- Reads a block scalar. -/
def scanBlockScalar (s : Scanner) (literal : Bool) : Except Fault Scanner := do
  let s ← s.dropKey
  let (text, cursor) ← blockScalar literal s.indent (s.cursor.skip 1)
  return { s.push (.scalar false text) with cursor, keyAllowed := true }

/-- Reads a scalar between quotes. -/
def scanQuoted (s : Scanner) (single : Bool) : Except Fault Scanner := do
  let s ← s.noteKey
  let (text, cursor) ← quotedScalar single (s.cursor.skip 1) []
  return { s.push (.scalar false text) with cursor, keyAllowed := false }

/-- Reads a plain scalar. -/
def scanPlain (s : Scanner) : Except Fault Scanner := do
  let s ← s.noteKey
  let (text, cursor, broken) ← plainScalar s.inFlow (s.indent + 1) s.cursor [] .empty
  return { s.push (.scalar true text) with cursor, keyAllowed := broken }

/-- A plain scalar may start with this character, given whether a gap follows it. -/
def startsPlain (flow : Bool) (c : Char) (beforeGap : Bool) : Bool :=
  if c = '-' then !beforeGap
  else if c = '?' ∨ c = ':' then !flow && !beforeGap
  else !(isBlank c || isBreak c || isOneOf ",[]\x7b\x7d#&*!|>'\"%@`" c)

/-- Reads the token at the cursor, which stands before `first`. -/
def scanAt (s : Scanner) (first : Char) (beforeGap : Bool) : Except Fault Scanner :=
  if s.cursor.column = 0 && first = '%' then do
    let s ← s.closeAll
    let (token, cursor) ← scanDirective s.cursor
    return { s.push token with cursor }
  else if s.cursor.atMarker then do
    let s ← s.closeAll
    return s.pushMark (if first = '-' then .documentStart else .documentEnd) 3
  else if first = '[' then s.openFlow .flowSequenceStart
  else if first = '\x7b' then s.openFlow .flowMappingStart
  else if first = ']' then s.closeFlow .flowSequenceEnd
  else if first = '\x7d' then s.closeFlow .flowMappingEnd
  else if first = ',' then do
    let s ← s.dropKey
    return { s.pushMark .flowEntry 1 with keyAllowed := true }
  else if first = '-' && beforeGap then s.scanEntry
  else if first = '?' && (s.inFlow || beforeGap) then s.scanKey
  else if first = ':' && (s.inFlow || beforeGap) then s.scanValue
  else if first = '*' || first = '&' || first = '!' then s.scanProperty first
  else if (first = '|' || first = '>') && !s.inFlow then s.scanBlockScalar (first = '|')
  else if first = '\'' || first = '"' then s.scanQuoted (first = '\'')
  else if startsPlain s.inFlow first beforeGap then s.scanPlain
  else .error .strayCharacter

/-- Reads all tokens from here on.  Every token takes at least one character. -/
def run (s : Scanner) : Except Fault (Array Token) := do
  let next := s.skipToToken
  let ready ← next.dropStaleKeys
  let ready := ready.closeBlocks ready.cursor.column
  match ready.cursor.rest with
  | [] =>
    let last ← (ready.closeBlocks (-1)).dropKey
    return last.tokens
  | first :: rest =>
    let after ← ready.scanAt first (atGap rest)
    if after.cursor.rest.length < s.cursor.rest.length then run after
    else throw .strayCharacter
termination_by s.cursor.rest.length

end Scanner

/-- The tokens of a text. -/
def tokens (text : String) : Except Fault (Array Token) :=
  let chars := text.toList
  if !chars.all isContent then .error .controlCharacter
  else (Scanner.start (unifyBreaks chars)).run

end Ontology.Yaml
