import Ontology.Yaml.Cursor
import Ontology.Yaml.Token
import Ontology.Tree.JsonReader

/-!
# The text of YAML scalars

Readers for the five ways to write a scalar: plain, between single or double quotes, and as a
literal or folded block.

## Main definitions

* `Yaml.plainScalar`, `Yaml.quotedScalar`, `Yaml.blockScalar` — each returns the text and the
  cursor behind it.
-/

namespace Ontology.Yaml

/-! ### Plain scalars -/

/-- A character that ends a plain scalar inside a flow collection. -/
def isFlowMark (c : Char) : Bool :=
  c = ',' ∨ c = '[' ∨ c = ']' ∨ c = '\x7b' ∨ c = '\x7d'

/-- Reads a word of a plain scalar: up to a gap, a colon before a gap or, inside a flow
collection, one of its marks. -/
def plainWord (flow : Bool) : List Char → Except Fault (List Char × List Char)
  | [] => .ok ([], [])
  | c :: rest =>
    if isBlank c || isBreak c || (flow && isFlowMark c) then .ok ([], c :: rest)
    else if c = ':' && atGap rest then .ok ([], c :: rest)
    else if c = ':' && flow && rest.head?.any (fun d => isFlowMark d || d = '?') then
      .error .ambiguousColon
    else do
      let (word, rest) ← plainWord flow rest
      return (c :: word, rest)

/-- Reads a plain scalar whose further lines are indented to column `indent` or more.  `text`
holds the characters so far, last one first, and `gap` what was read behind them.  The last
component tells whether the scalar was followed by a line end. -/
def plainScalar (flow : Bool) (indent : Int) (c : Cursor) (text : List Char) (gap : Gap) :
    Except Fault (String × Cursor × Bool) := do
  let done (text : List Char) (gap : Gap) (c : Cursor) :=
    (String.ofList text.reverse, c, !gap.breaks.isEmpty)
  if c.atMarker || c.rest.head? = some '#' then
    return done text gap c
  let (word, rest) ← plainWord flow c.rest
  let text := if word.isEmpty then text else word.reverse ++ gap.fold.reverse ++ text
  let gap := if word.isEmpty then gap else .empty
  let behind := c.advance word.length rest
  if rest.isEmpty || !atGap rest then
    return done text gap behind
  let (gap, next, stray) := behind.takeGap indent gap
  if stray then
    throw .strayTab
  if !flow && (next.column : Int) < indent then
    return done text gap next
  if next.rest.length < c.rest.length then
    plainScalar flow indent next text gap
  else
    return done text gap next
termination_by c.rest.length

/-! ### Quoted scalars -/

/-- The character behind a one-letter escape. -/
def escapedChar? : Char → Option Char
  | '0' => some '\x00'
  | 'a' => some '\x07'
  | 'b' => some '\x08'
  | 't' => some '\t'
  | '\t' => some '\t'
  | 'n' => some '\n'
  | 'v' => some '\x0b'
  | 'f' => some '\x0c'
  | 'r' => some '\r'
  | 'e' => some '\x1b'
  | ' ' => some ' '
  | '"' => some '"'
  | '/' => some '/'
  | '\\' => some '\\'
  | 'N' => some '\u0085'
  | '_' => some '\u00a0'
  | 'L' => some '\u2028'
  | 'P' => some '\u2029'
  | _ => none

/-- The character with a number given by hexadecimal digits. -/
def numberedChar (digits : List Char) : Except Fault Char :=
  match Tree.hexNumber? digits with
  | some n => if n.isValidChar then .ok (Char.ofNat n) else .error .badEscape
  | none => .error .badEscape

/-- Where the words of a quoted scalar end. -/
inductive WordEnd where
  /-- Before a gap or at the end of the text. -/
  | gap
  /-- At the closing quote. -/
  | quote
  /-- Before a line end that a backslash joins to the word. -/
  | joined
  deriving DecidableEq, Repr

/-- Reads a word between quotes, decoding escapes.  `text` holds the decoded characters, last one
first, and `count` the number of characters read. -/
def quotedWord (single : Bool) (text : List Char) (count : Nat) :
    List Char → Except Fault (List Char × Nat × WordEnd × List Char)
  | [] => .ok (text, count, .gap, [])
  | '\'' :: '\'' :: rest =>
    if single then quotedWord single ('\'' :: text) (count + 2) rest
    else quotedWord single ('\'' :: text) (count + 1) ('\'' :: rest)
  | '\\' :: 'x' :: a :: b :: rest =>
    if single then quotedWord single ('\\' :: text) (count + 1) ('x' :: a :: b :: rest)
    else do quotedWord single ((← numberedChar [a, b]) :: text) (count + 4) rest
  | '\\' :: 'u' :: a :: b :: c :: d :: rest =>
    if single then
      quotedWord single ('\\' :: text) (count + 1) ('u' :: a :: b :: c :: d :: rest)
    else do quotedWord single ((← numberedChar [a, b, c, d]) :: text) (count + 6) rest
  | '\\' :: 'U' :: a :: b :: c :: d :: e :: f :: g :: h :: rest =>
    if single then
      quotedWord single ('\\' :: text) (count + 1)
        ('U' :: a :: b :: c :: d :: e :: f :: g :: h :: rest)
    else do
      quotedWord single ((← numberedChar [a, b, c, d, e, f, g, h]) :: text) (count + 10) rest
  | ch :: rest =>
    if isBlank ch || isBreak ch then .ok (text, count, .gap, ch :: rest)
    else if ch = (if single then '\'' else '"') then .ok (text, count, .quote, ch :: rest)
    else if single || ch ≠ '\\' then quotedWord single (ch :: text) (count + 1) rest
    else
      match rest with
      | [] => .error .badEscape
      | e :: rest =>
        if isBreak e then .ok (text, count + 1, .joined, e :: rest)
        else
          match escapedChar? e with
          | some decoded => quotedWord single (decoded :: text) (count + 2) rest
          | none => .error .badEscape
termination_by cs => cs.length

/-- Reads the words of a quoted scalar from behind its opening quote. -/
def quotedScalar (single : Bool) (c : Cursor) (text : List Char) :
    Except Fault (String × Cursor) := do
  if c.atMarker || c.rest.isEmpty then
    throw .unclosedQuote
  let (text, count, ending, rest) ← quotedWord single text 0 c.rest
  let behind := c.advance count rest
  match ending with
  | .quote => return (String.ofList text.reverse, behind.skip 1)
  | .gap =>
    let (gap, next, _) := behind.takeGap (-1) .empty
    if next.rest.length < c.rest.length then
      quotedScalar single next (gap.fold.reverse ++ text)
    else throw .unclosedQuote
  | .joined =>
    let (gap, next, _) := behind.nextLine.takeGap (-1) ⟨[], ['\n']⟩
    if next.rest.length < c.rest.length then
      quotedScalar single next (gap.breaks.dropLast ++ text)
    else throw .unclosedQuote
termination_by c.rest.length

/-! ### Block scalars -/

/-- What becomes of the line ends behind the last line of a block scalar. -/
inductive Chomping where
  | strip
  | clip
  | keep
  deriving DecidableEq, Repr

/-- Reads a chomping mark. -/
def takeChomping : List Char → Option Chomping × List Char
  | '+' :: rest => (some .keep, rest)
  | '-' :: rest => (some .strip, rest)
  | cs => (none, cs)

/-- Reads an indentation mark, a digit other than zero. -/
def takeIncrement : List Char → Except Fault (Option Nat × List Char)
  | c :: rest =>
    if c = '0' then .error .badBlockHeader
    else if c.isDigit then .ok (some (c.toNat - '0'.toNat), rest)
    else .ok (none, c :: rest)
  | [] => .ok (none, [])

/-- Reads the marks behind `|` or `>`: chomping and indentation in any order. -/
def blockHeader (cs : List Char) : Except Fault (Chomping × Option Nat × List Char) := do
  match takeChomping cs with
  | (some chomping, rest) =>
    let (increment, rest) ← takeIncrement rest
    return (chomping, increment, rest)
  | (none, _) =>
    let (increment, rest) ← takeIncrement cs
    match increment with
    | none => return (.clip, none, rest)
    | some _ =>
      let (chomping, rest) := takeChomping rest
      return (chomping.getD .clip, increment, rest)

/-- Moves over the indentation of empty lines up to the next line with text.  With `indent = 0`
the indentation is not known yet and `widest` collects the largest one seen; `breaks` collects
the line ends, last one first. -/
def blankLines (indent widest : Nat) (breaks : List Char) (c : Cursor) :
    Except Fault (Nat × List Char × Cursor) :=
  let run := c.rest.takeWhile (· = ' ')
  let width := if indent = 0 then run.length else min run.length (indent - c.column)
  let next := c.skip width
  let widest := max widest next.column
  match _h : next.rest with
  | [] => .ok (widest, breaks, next)
  | ch :: rest =>
    if (indent = 0 ∨ next.column < indent) ∧ ch = '\t' then .error .strayTab
    else if isBreak ch then
      blankLines indent widest (ch :: breaks)
        { rest, index := next.index + 1, line := next.line + 1, column := 0 }
    else .ok (widest, breaks, next)
termination_by c.rest.length
decreasing_by
  have : next.rest.length ≤ c.rest.length := by simp [next, Cursor.skip, Cursor.advance]
  simp only [_h, List.length_cons] at this ⊢
  omega

/-- The state of a block scalar between two of its lines. -/
structure BlockState where
  /-- The characters so far, last one first. -/
  text : List Char
  /-- The line end behind the last line. -/
  ending : List Char
  /-- The line ends of the empty lines behind it, last one first. -/
  empties : List Char
  /-- The last line started with a blank. -/
  blankStart : Bool

/-- Reads the lines of a block scalar that is indented to column `indent`. -/
def blockLines (literal : Bool) (indent : Nat) (c : Cursor) (s : BlockState) :
    Except Fault (BlockState × Cursor) := do
  match c.rest with
  | [] => return (s, c)
  | first :: _ =>
    if c.column ≠ indent then
      return (s, c)
    let blank := isBlank first
    let joined : List Char :=
      if !literal && s.ending == ['\n'] && !s.blankStart && !blank then
        if s.empties.isEmpty then [' '] else s.empties
      else s.empties ++ s.ending
    let (line, behind) := c.takeWhile (!isBreak ·)
    let ending := (behind.rest.take 1)
    let (_, empties, next) ← blankLines indent 0 [] behind.nextLine
    let s : BlockState :=
      { text := line.reverse ++ joined ++ s.text, ending, empties, blankStart := blank }
    if next.rest.length < c.rest.length then blockLines literal indent next s
    else return (s, next)
termination_by c.rest.length

/-- Reads a block scalar from behind its `|` or `>` mark, inside a block of column `parent`. -/
def blockScalar (literal : Bool) (parent : Int) (c : Cursor) : Except Fault (String × Cursor) := do
  let (chomping, increment, rest) ← blockHeader c.rest
  let header := ((c.advance (c.rest.length - rest.length) rest).skipWhile isBlank).skipComment
  if header.rest.head?.any (!isBreak ·) then
    throw .badBlockHeader
  let fixed : Nat := increment.elim 0 fun n => ((max parent 0) + n).toNat
  let (widest, empties, first) ← blankLines fixed 0 [] header.nextLine
  let indent := if fixed = 0 then max (max widest (parent + 1).toNat) 1 else fixed
  let (s, next) ← blockLines literal indent first ⟨[], [], empties, false⟩
  let tail :=
    match chomping with
    | .strip => []
    | .clip => s.ending
    | .keep => s.empties ++ s.ending
  return (String.ofList (tail ++ s.text).reverse, next)

end Ontology.Yaml
