/-!
# Words

A line is cut into words at blanks.  Between single quotes every character stands for itself,
between double quotes a backslash does so only before a character that is special there, and
elsewhere it takes away the meaning of any character.  A number sign at the start of a word begins
a comment.

## Main definitions

* `Text.words?` — the words of a text, unless a quote is not closed.
* `Text.trimmed` — a text without blank characters at its ends.
* `Text.lines` — the lines of a text.
-/

namespace Ontology.Text

/-! ### Blank characters -/

/-- The ranges of blank characters. -/
def blankRanges : List (Nat × Nat) :=
  [(0x09, 0x0d), (0x20, 0x20), (0x85, 0x85), (0xa0, 0xa0), (0x1680, 0x1680), (0x2000, 0x200a),
    (0x2028, 0x2029), (0x202f, 0x202f), (0x205f, 0x205f), (0x3000, 0x3000)]

/-- The character is blank: a space, a tab, a line end or the like in any script. -/
def isBlank (c : Char) : Bool :=
  blankRanges.any fun (low, high) => low ≤ c.toNat && c.toNat ≤ high

/-- A text without blank characters at its ends. -/
def trimmed (text : String) : String :=
  let inner := text.toList.dropWhile isBlank
  String.ofList (inner.reverse.dropWhile isBlank).reverse

/-! ### Lines -/

/-- A line without the mark that may stand before its end. -/
def withoutReturn (line : String) : String :=
  if line.endsWith "\r" then String.ofList line.toList.dropLast else line

/-- The lines of a text; nothing behind the last line end is no line. -/
def lines (text : String) : List String :=
  let parts := text.splitOn "\n"
  parts.dropLast.map withoutReturn ++ parts.getLast?.toList.filter (· ≠ "")

/-! ### Words -/

/-- Where a place of a line lies. -/
inductive WordPlace where
  | between
  | inside
  | singleQuoted
  | doubleQuoted
  | comment
  deriving DecidableEq, Repr

/-- The character ends a word. -/
def isWordEnd (c : Char) : Bool :=
  c = ' ' || c = '\t' || c = '\n'

/-- A backslash between double quotes belongs to the character behind it. -/
def isSpecialQuoted (c : Char) : Bool :=
  c = '$' || c = '\x60' || c = '"' || c = '\\'

/-- The words of what follows a place; `word` holds the characters so far of the word that the place
lies in, the last one first. -/
def wordsFrom? (place : WordPlace) (word : List Char) : List Char → Option (List String)
  | [] =>
    match place with
    | .between | .comment => some []
    | .inside => some [String.ofList word.reverse]
    | .singleQuoted | .doubleQuoted => none
  | '\\' :: [] =>
    match place with
    | .between | .inside => some [String.ofList ('\\' :: word).reverse]
    | .comment => some []
    | .singleQuoted | .doubleQuoted => none
  | '\\' :: c :: rest =>
    match place with
    | .between => if c = '\n' then wordsFrom? .between [] rest else wordsFrom? .inside [c] rest
    | .inside => wordsFrom? .inside (if c = '\n' then word else c :: word) rest
    | .singleQuoted => wordsFrom? .singleQuoted ('\\' :: word) (c :: rest)
    | .doubleQuoted =>
      if c = '\n' then wordsFrom? .doubleQuoted word rest
      else if isSpecialQuoted c then wordsFrom? .doubleQuoted (c :: word) rest
      else wordsFrom? .doubleQuoted (c :: '\\' :: word) rest
    | .comment => wordsFrom? .comment [] (c :: rest)
  | c :: rest =>
    match place with
    | .comment => wordsFrom? (if c = '\n' then .between else .comment) [] rest
    | .singleQuoted =>
      if c = '\'' then wordsFrom? .inside word rest else wordsFrom? .singleQuoted (c :: word) rest
    | .doubleQuoted =>
      if c = '"' then wordsFrom? .inside word rest else wordsFrom? .doubleQuoted (c :: word) rest
    | .between | .inside =>
      if c = '\'' then wordsFrom? .singleQuoted word rest
      else if c = '"' then wordsFrom? .doubleQuoted word rest
      else if isWordEnd c then
        let words := wordsFrom? .between [] rest
        if place = .inside then words.map (String.ofList word.reverse :: ·) else words
      else if c = '#' ∧ place = .between then wordsFrom? .comment [] rest
      else wordsFrom? .inside (c :: word) rest

/-- The words of a text, unless a quote is not closed. -/
def words? (text : String) : Option (List String) :=
  wordsFrom? .between [] text.toList

end Ontology.Text
