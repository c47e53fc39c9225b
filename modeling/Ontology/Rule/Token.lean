import Ontology.Text.Lexeme

/-!
# Tokens of a rule text

## Main definitions

* `RuleToken` — the tokens.
* `RuleToken.read` — the longest token at the start of a text.
* `RuleToken.unescape` — the value of a quoted text.
-/

namespace Ontology

/-- A token of a rule text. -/
inductive RuleToken where
  /-- The name behind a question mark. -/
  | variable (name : String)
  | name (text : String)
  /-- What stands between the quotes, as it was written. -/
  | quoted (text : String)
  | integer (text : String)
  | decimal (text : String)
  | leftParen
  | rightParen
  | comma
  | caret
  | arrow
  deriving DecidableEq, Repr

namespace RuleToken

open Text

/-- A character that may follow in the name of an entity. -/
def isEntityChar (c : Char) : Bool :=
  isNameChar c || c = '.' || c = ':' || c = '-'

/-- The text of the first character and some of the others. -/
def lexemeText (c : Char) (cs : List Char) (count : Nat) : String :=
  String.ofList (c :: cs.take count)

/-- The fraction of a number: a point and at least one digit. -/
def fractionLength : List Char → Nat
  | '.' :: cs =>
    match runLength Char.isDigit cs with
    | 0 => 0
    | digits => digits + 1
  | _ => 0

/-- The number at the start of a text whose first character is a sign or a digit. -/
def readNumber (c : Char) (cs : List Char) : Lexeme RuleToken × Nat :=
  let digits := runLength Char.isDigit cs
  let fraction := fractionLength (cs.drop digits)
  if fraction ≠ 0 then
    (.token (.decimal (lexemeText c cs (digits + fraction))), digits + fraction)
  else if c.isDigit || digits ≠ 0 then (.token (.integer (lexemeText c cs digits)), digits)
  else (.stray, 0)

/-- What comes first in a rule text. -/
def read (c : Char) (cs : List Char) : Lexeme RuleToken × Nat :=
  if c = ' ' || c = '\t' || c = '\r' || c = '\n' || c = '\x0c' then (.blank, 0)
  else if isNameStart c then
    let count := runLength isEntityChar cs
    (.token (.name (lexemeText c cs count)), count)
  else if c = '?' then
    if cs.head?.any isNameStart then
      let count := runLength isNameChar cs
      (.token (.variable (String.ofList (cs.take count))), count)
    else (.stray, 0)
  else if c = '"' then
    match quotedLength '"' true cs with
    | .ok count => (.token (.quoted (String.ofList (cs.take (count - 1)))), count)
    | .error count => (.stray, count)
  else if c = '-' && cs.head? = some '>' then (.token .arrow, 1)
  else if c = '-' || c.isDigit then readNumber c cs
  else if c = '.' then
    match fractionLength (c :: cs) with
    | 0 => (.stray, 0)
    | fraction => (.token (.decimal (lexemeText c cs (fraction - 1))), fraction - 1)
  else if c = '(' then (.token .leftParen, 0)
  else if c = ')' then (.token .rightParen, 0)
  else if c = ',' then (.token .comma, 0)
  else if c = '^' then (.token .caret, 0)
  else (.stray, 0)

/-- The characters of a quoted text: a backslash before a quote is left out. -/
def unescape : List Char → List Char
  | '\\' :: '"' :: rest => '"' :: unescape rest
  | c :: rest => c :: unescape rest
  | [] => []

end RuleToken

end Ontology
