/-!
# Lexemes

Cutting a text into tokens: at each place the start of the text decides what comes first, a token,
something that is skipped, or something that no token starts with.

## Main definitions

* `Lexeme`, `Stray` — what comes first, and a part of a text that is no token.
* `tokens` — the tokens of a text up to the first stray part.
* `quotedLength` — how far a quoted part reaches.
-/

namespace Ontology.Text

/-- What comes first in a text. -/
inductive Lexeme (τ : Type) where
  | blank
  | token (t : τ)
  | stray
  deriving Repr

/-- A part of a text that is no token. -/
structure Stray where
  text : String
  /-- The number of bytes before it. -/
  offset : Nat
  deriving DecidableEq, Repr

/-- The number of bytes of a list of characters. -/
def byteSize : List Char → Nat
  | [] => 0
  | c :: cs => c.utf8Size + byteSize cs

/-- The tokens of a text that follows `offset` bytes, and the part of it that ends them if it is no
token.  Given the first character and the others, `read` tells what comes first and how many
of the others belong to it. -/
def tokens {τ : Type} (read : Char → List Char → Lexeme τ × Nat) (offset : Nat) :
    List Char → List τ × Option Stray
  | [] => ([], none)
  | c :: cs =>
    let (lexeme, count) := read c cs
    match lexeme with
    | .stray => ([], some ⟨String.ofList (c :: cs.take count), offset⟩)
    | .blank => tokens read (offset + byteSize (c :: cs.take count)) (cs.drop count)
    | .token t =>
      let (ts, stray) := tokens read (offset + byteSize (c :: cs.take count)) (cs.drop count)
      (t :: ts, stray)
termination_by cs => cs.length
decreasing_by all_goals simp only [List.length_drop, List.length_cons]; omega

/-- The number of characters at the start of a text that a test accepts. -/
def runLength (accepts : Char → Bool) (cs : List Char) : Nat :=
  (cs.takeWhile accepts).length

/-- The number of characters after an opening quote, up to and including the closing one; a
backslash takes the next character with it.  Where the text breaks off or has a line break that it
may not have, the number of characters before that place is the error; a backslash with nothing to
take does not count. -/
def quotedLength (quote : Char) (multiline : Bool) : List Char → Except Nat Nat
  | [] => .error 0
  | c :: cs =>
    if c = quote then .ok 1
    else if c = '\\' then
      match cs with
      | [] => .error 0
      | d :: rest =>
        if d = '\n' then .error 0
        else
          match quotedLength quote multiline rest with
          | .ok n => .ok (n + 2)
          | .error n => .error (n + 2)
    else if c = '\n' ∧ multiline = false then .error 0
    else
      match quotedLength quote multiline cs with
      | .ok n => .ok (n + 1)
      | .error n => .error (n + 1)

/-- A letter of the English alphabet or an underscore. -/
def isNameStart (c : Char) : Bool :=
  c.isAlpha || c = '_'

/-- A character that may follow in a name. -/
def isNameChar (c : Char) : Bool :=
  isNameStart c || c.isDigit

end Ontology.Text
