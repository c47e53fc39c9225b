import Ontology.Text.Lexeme
import Ontology.Text.Quoted

/-!
# Tokens of a query text

## Main definitions

* `QueryToken` — the tokens.
* `QueryToken.read` — what comes first in a text.
* `QueryToken.outline` — a token in messages.
-/

namespace Ontology

/-- A token of a query text. -/
inductive QueryToken where
  | prefixWord
  | baseWord
  | selectWord
  | distinctWord
  | whereWord
  /-- The predicate `a`. -/
  | typeWord
  | trueWord
  | falseWord
  | leftBrace
  | rightBrace
  | dot
  | semicolon
  | comma
  | star
  | doubleCaret
  /-- The name behind a question mark or a dollar sign. -/
  | variable (name : String)
  /-- What stands between angle brackets. -/
  | iri (text : String)
  /-- A name with a colon. -/
  | shortened (name : String)
  /-- What stands between quotes, as it was written. -/
  | quoted (text : String)
  /-- The tag behind an at sign. -/
  | language (tag : String)
  | integer (text : String)
  | decimal (text : String)
  | double (text : String)
  /-- Any other word. -/
  | word (text : String)
  deriving DecidableEq, Repr

namespace QueryToken

/-- The name of the kind of a token. -/
def name : QueryToken → String
  | prefixWord => "Prefix"
  | baseWord => "Base"
  | selectWord => "Select"
  | distinctWord => "Distinct"
  | whereWord => "Where"
  | typeWord => "A"
  | trueWord => "True"
  | falseWord => "False"
  | leftBrace => "LBrace"
  | rightBrace => "RBrace"
  | dot => "Dot"
  | semicolon => "Semicolon"
  | comma => "Comma"
  | star => "Star"
  | doubleCaret => "DoubleCaret"
  | «variable» _ => "Variable"
  | iri _ => "Iri"
  | shortened _ => "PrefixedName"
  | quoted _ => "String"
  | language _ => "LangTag"
  | integer _ => "Integer"
  | decimal _ => "Decimal"
  | double _ => "Double"
  | word _ => "Word"

/-- The text of a token whose kind has several. -/
def text? : QueryToken → Option String
  | «variable» t | iri t | shortened t | quoted t | language t | integer t | decimal t
  | double t | word t => some t
  | _ => none

/-- A token in messages. -/
def outline (t : QueryToken) : String :=
  match t.text? with
  | some text => t.name ++ "(" ++ Text.quote text ++ ")"
  | none => t.name

open Text

/-! ### Reading -/

/-- A character of a shortened name. -/
def isShortenedChar (c : Char) : Bool :=
  isNameChar c || c = '-'

/-- The token of a word; keywords may be written in any case. -/
def ofWord (text : String) : QueryToken :=
  match text.toUpper with
  | "PREFIX" => prefixWord
  | "BASE" => baseWord
  | "SELECT" => selectWord
  | "DISTINCT" => distinctWord
  | "WHERE" => whereWord
  | _ =>
    match text with
    | "a" => typeWord
    | "true" => trueWord
    | "false" => falseWord
    | _ => word text

/-- The number of characters of the local part of a shortened name. -/
def localLength : List Char → Nat
  | c :: cs => if isNameChar c then runLength isShortenedChar cs + 1 else 0
  | [] => 0

/-- A character that an IRI between angle brackets may hold. -/
def isBracketedChar (c : Char) : Bool :=
  0x20 < c.toNat && !("<>\"\x7b\x7d|^\x60\\".toList.contains c)

/-- The number of characters of the further parts of a language tag. -/
def subtagsLength (cs : List Char) : Nat :=
  match cs with
  | '-' :: rest =>
    match h : runLength Char.isAlphanum rest with
    | 0 => 0
    | count + 1 => count + 2 + subtagsLength (rest.drop (count + 1))
  | _ => 0
termination_by cs.length
decreasing_by simp only [List.length_drop, List.length_cons]; omega

/-- The number of characters of an exponent. -/
def exponentLength : List Char → Nat
  | c :: cs =>
    if c = 'e' ∨ c = 'E' then
      let sign := if cs.head? = some '+' ∨ cs.head? = some '-' then 1 else 0
      match runLength Char.isDigit (cs.drop sign) with
      | 0 => 0
      | digits => 1 + sign + digits
    else 0
  | [] => 0

/-- How a number goes on behind its sign: the kind of number and its length.  A point has to be
followed by a digit, or by an exponent if digits stand before it; otherwise the length of the digits
with their point is the error. -/
def numberKind (cs : List Char) : Except Nat ((String → QueryToken) × Nat) :=
  let whole := runLength Char.isDigit cs
  match cs.drop whole with
  | '.' :: rest =>
    let fraction := runLength Char.isDigit rest
    let exponent := exponentLength (rest.drop fraction)
    let count := whole + 1 + fraction
    if whole + fraction = 0 then .error 0
    else if exponent ≠ 0 then .ok (double, count + exponent)
    else if fraction ≠ 0 then .ok (decimal, count)
    else .error count
  | rest =>
    if whole = 0 then .error 0
    else
      match exponentLength rest with
      | 0 => .ok (integer, whole)
      | exponent => .ok (double, whole + exponent)

/-- The number at the start of a text. -/
def readNumber (c : Char) (cs : List Char) : Lexeme QueryToken × Nat :=
  let sign := if c = '+' ∨ c = '-' then 1 else 0
  match numberKind ((c :: cs).drop sign) with
  | .ok (kind, count) =>
    let others := sign + count - 1
    (.token (kind (String.ofList (c :: cs.take others))), others)
  | .error count => (.stray, sign + count - 1)

/-- The name at the start of a text: behind a hyphen there has to be a colon. -/
def readName (c : Char) (cs : List Char) : Lexeme QueryToken × Nat :=
  let plain := runLength isNameChar cs
  let long := runLength isShortenedChar cs
  if (cs.drop long).head? = some ':' then
    let count := long + 1 + localLength (cs.drop (long + 1))
    (.token (shortened (String.ofList (c :: cs.take count))), count)
  else if plain = long then (.token (ofWord (String.ofList (c :: cs.take plain))), plain)
  else (.stray, long)

/-- What comes first in a query text. -/
def read (c : Char) (cs : List Char) : Lexeme QueryToken × Nat :=
  if c = ' ' || c = '\t' || c = '\r' || c = '\n' || c = '\x0c' then (.blank, 0)
  else if c = '#' then (.blank, runLength (· ≠ '\n') cs)
  else if isNameStart c then readName c cs
  else if c = ':' then
    let count := localLength cs
    (.token (shortened (String.ofList (c :: cs.take count))), count)
  else if c = '?' || c = '$' then
    if cs.head?.any isNameStart then
      let count := runLength isNameChar cs
      (.token («variable» (String.ofList (cs.take count))), count)
    else (.stray, 0)
  else if c = '<' then
    let count := runLength isBracketedChar cs
    if (cs.drop count).head? = some '>' then
      (.token (iri (String.ofList (cs.take count))), count + 1)
    else (.stray, count)
  else if c = '"' || c = '\'' then
    match quotedLength c false cs with
    | .ok count => (.token (quoted (String.ofList (cs.take (count - 1)))), count)
    | .error count => (.stray, count)
  else if c = '@' then
    match runLength Char.isAlpha cs with
    | 0 => (.stray, 0)
    | letters =>
      let count := letters + subtagsLength (cs.drop letters)
      (.token (language (String.ofList (cs.take count))), count)
  else if c = '.' && !cs.head?.any Char.isDigit then (.token dot, 0)
  else if c.isDigit || c = '+' || c = '-' || c = '.' then readNumber c cs
  else if c = '^' && cs.head? = some '^' then (.token doubleCaret, 1)
  else if c = '\x7b' then (.token leftBrace, 0)
  else if c = '\x7d' then (.token rightBrace, 0)
  else if c = ';' then (.token semicolon, 0)
  else if c = ',' then (.token comma, 0)
  else if c = '*' then (.token star, 0)
  else (.stray, 0)

/-- The tokens of a query text, up to the first part that is none. -/
def ofText (text : String) : List QueryToken × Option Stray :=
  tokens read 0 text.toList

/-- The value of a quoted text, or the character behind a backslash that makes no escape. -/
def unescape : List Char → Except String (List Char)
  | [] => .ok []
  | '\\' :: c :: rest => do
    let value ← match c with
      | 'n' => .ok '\n'
      | 't' => .ok '\t'
      | 'r' => .ok '\r'
      | 'b' => .ok '\x08'
      | 'f' => .ok '\x0c'
      | '"' => .ok '"'
      | '\'' => .ok '\''
      | '\\' => .ok '\\'
      | c => .error c.toString
    return value :: (← unescape rest)
  | ['\\'] => .error ""
  | c :: rest => do return c :: (← unescape rest)

end QueryToken

end Ontology
