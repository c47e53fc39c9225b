/-!
# Positions in a YAML text

A cursor holds the characters still to be read and the line and column of the first of them.

## Main definitions

* `Yaml.Cursor`, with `advance` and `nextLine` as its two moves.
* `Yaml.Gap` — a run of blanks and line ends between the words of a scalar, and `Gap.fold`, the
  text that stands for it in the value.
* `Yaml.isContent` — the characters that a text may hold.
-/

namespace Ontology.Yaml

/-! ### Character classes -/

/-- A space or a tab. -/
def isBlank (c : Char) : Bool :=
  c = ' ' ∨ c = '\t'

/-- A line end.  Carriage returns and next-line characters have been replaced by line feeds. -/
def isBreak (c : Char) : Bool :=
  c = '\n' ∨ c = '\u2028' ∨ c = '\u2029'

/-- One of the characters of a text. -/
def isOneOf (text : String) (c : Char) : Bool :=
  text.toList.contains c

/-- Letters, digits, underscore and dash. -/
def isWordChar (c : Char) : Bool :=
  c.isAlphanum ∨ c = '_' ∨ c = '-'

/-- A character that a text may hold. -/
def isContent (c : Char) : Bool :=
  let n := c.toNat
  n = 0x09 ∨ n = 0x0A ∨ n = 0x0D ∨ (0x20 ≤ n ∧ n ≤ 0x7E) ∨ n = 0x85 ∨ (0xA0 ≤ n ∧ n ≤ 0xFFFD)
    ∨ 0x10000 ≤ n

/-- The list is empty or starts with a blank or a line end. -/
def atGap : List Char → Bool
  | [] => true
  | c :: _ => isBlank c || isBreak c

/-- Writes every line end as a line feed, apart from the line and paragraph separators. -/
def unifyBreaks : List Char → List Char
  | '\r' :: '\n' :: rest => '\n' :: unifyBreaks rest
  | '\r' :: rest => '\n' :: unifyBreaks rest
  | '\u0085' :: rest => '\n' :: unifyBreaks rest
  | c :: rest => c :: unifyBreaks rest
  | [] => []

/-! ### Cursors -/

/-- A position in a text. -/
structure Cursor where
  /-- What is still to be read. -/
  rest : List Char
  /-- How many characters lie behind. -/
  index : Nat
  line : Nat
  column : Nat
  deriving Repr

namespace Cursor

/-- The start of a text. -/
def start (text : List Char) : Cursor :=
  ⟨text, 0, 0, 0⟩

/-- Moves over `count` characters of the line to the given rest. -/
def advance (c : Cursor) (count : Nat) (rest : List Char) : Cursor :=
  { c with rest, index := c.index + count, column := c.column + count }

/-- Moves over `count` characters of the line. -/
def skip (c : Cursor) (count : Nat) : Cursor :=
  c.advance count (c.rest.drop count)

/-- Moves over the longest run of characters with a property and returns it. -/
def takeWhile (c : Cursor) (p : Char → Bool) : List Char × Cursor :=
  let run := c.rest.takeWhile p
  (run, c.skip run.length)

/-- Moves over the longest run of characters with a property. -/
def skipWhile (c : Cursor) (p : Char → Bool) : Cursor :=
  (c.takeWhile p).2

/-- Moves over a line end, if there is one. -/
def nextLine (c : Cursor) : Cursor :=
  match c.rest with
  | b :: rest =>
    if isBreak b then { rest, index := c.index + 1, line := c.line + 1, column := 0 } else c
  | [] => c

/-- Moves over a comment, if there is one. -/
def skipComment (c : Cursor) : Cursor :=
  if c.rest.head? = some '#' then c.skipWhile (!isBreak ·) else c

/-- The line starts with `---` or `...` and a gap. -/
def atMarker (c : Cursor) : Bool :=
  c.column = 0 &&
    match c.rest with
    | '-' :: '-' :: '-' :: rest => atGap rest
    | '.' :: '.' :: '.' :: rest => atGap rest
    | _ => false

end Cursor

/-! ### Gaps inside scalars -/

/-- Blanks and line ends between the words of a scalar. -/
structure Gap where
  /-- The blanks before the first line end, last one first. -/
  blanks : List Char
  /-- The line ends, last one first. -/
  breaks : List Char
  deriving Repr

/-- A gap without characters. -/
def Gap.empty : Gap := ⟨[], []⟩

/-- The characters that stand for a gap: a single line feed becomes a space, of several the first
is dropped, and blanks beside line ends are dropped. -/
def Gap.fold (g : Gap) : List Char :=
  match g.breaks.reverse with
  | [] => g.blanks.reverse
  | ['\n'] => [' ']
  | '\n' :: more => more
  | breaks => breaks

/-- Reads a gap.  A tab after a line end must not stand left of column `indent`; it is found at
the cursor where the result ends in `true`. -/
def Cursor.takeGap (indent : Int) (c : Cursor) (g : Gap) : Gap × Cursor × Bool :=
  match _h : c.rest with
  | [] => (g, c, false)
  | ch :: rest =>
    if isBlank ch then
      if g.breaks.isEmpty then
        (c.advance 1 rest).takeGap indent { g with blanks := ch :: g.blanks }
      else if ch = '\t' ∧ (c.column : Int) < indent then (g, c, true)
      else (c.advance 1 rest).takeGap indent g
    else if isBreak ch then
      Cursor.takeGap indent { rest, index := c.index + 1, line := c.line + 1, column := 0 }
        { g with breaks := ch :: g.breaks }
    else (g, c, false)
termination_by c.rest.length
decreasing_by all_goals simp [Cursor.advance, _h]

end Ontology.Yaml
