import Ontology.Rdf.LanguageTag
import Ontology.Rdf.Vocabulary
import Ontology.Tree.JsonReader

/-!
# Spelling in graph documents

The spelling of texts, names, labels and numbers that all line formats of graphs share.  Each
reader takes a part from the start of a text and gives back what follows it.

## Main definitions

* `takeDelimited?` — a text up to its closing mark, with its escapes replaced.
* `takeLocal?`, `takeLabel?` — the local part of a name, and the label of a node.
* `takeNumber?` — a number with its datatype.
-/

namespace Ontology.Rdf

/-! ### Texts -/

/-- The character of a number of hexadecimal digits, which may have a plus sign. -/
def numberedChar? (digits : List Char) : Option Char := do
  let n ← Tree.hexNumber? (if digits.head? = some '+' then digits.tail else digits)
  if n.isValidChar then some (Char.ofNat n) else none

/-- The character that a letter behind a backslash stands for. -/
def escapedChar? : Char → Option Char
  | 't' => some '\t'
  | 'b' => some '\x08'
  | 'n' => some '\n'
  | 'r' => some '\r'
  | 'f' => some '\x0c'
  | '"' => some '"'
  | '\'' => some '\''
  | '\\' => some '\\'
  | _ => none

/-- What stands before a closing mark, with its escapes replaced; `escaped?` tells what letters
behind a backslash stand for, besides those of numbered characters. -/
def takeDelimited? (stop : List Char) (escaped? : Char → Option Char) (seen cs : List Char) :
    Option (String × List Char) :=
  if stop.isPrefixOf cs then some (String.ofList seen.reverse, cs.drop stop.length)
  else
    match cs with
    | [] => none
    | '\\' :: 'u' :: a :: b :: c :: d :: rest => do
      takeDelimited? stop escaped? ((← numberedChar? [a, b, c, d]) :: seen) rest
    | '\\' :: 'U' :: a :: b :: c :: d :: e :: f :: g :: h :: rest => do
      takeDelimited? stop escaped? ((← numberedChar? [a, b, c, d, e, f, g, h]) :: seen) rest
    | '\\' :: c :: rest => do takeDelimited? stop escaped? ((← escaped? c) :: seen) rest
    | c :: rest => takeDelimited? stop escaped? (c :: seen) rest

/-- An IRI or a reference behind its opening bracket. -/
def takeReference? (cs : List Char) : Option (String × List Char) :=
  takeDelimited? ['>'] (fun _ => none) [] cs

/-- A text from its opening quotes on; it may have three of them on each side if `long` holds. -/
def takeQuoted? (long : Bool) (cs : List Char) : Option (String × List Char) :=
  match cs with
  | [] => none
  | quote :: rest =>
    let triple := [quote, quote, quote]
    if long && triple.isPrefixOf cs then takeDelimited? triple escapedChar? [] (cs.drop 3)
    else takeDelimited? [quote] escapedChar? [] rest

/-! ### Names -/

/-- A letter that a prefix may start with. -/
def isNameLetter (c : Char) : Bool :=
  c.isAlpha
    || inRanges [(0xc0, 0xd6), (0xd8, 0xf6), (0xf8, 0x2ff), (0x370, 0x37d), (0x37f, 0x1fff),
      (0x200c, 0x200d), (0x2070, 0x218f), (0x2c00, 0x2fef), (0x3001, 0xd7ff), (0xf900, 0xfdcf),
      (0xfdf0, 0xfffd), (0x10000, 0xeffff)] c

/-- A character that a label may start with. -/
def isLabelStart (c : Char) : Bool :=
  isNameLetter c || c = '_' || c.isDigit

/-- A character inside a name. -/
def isNameChar (c : Char) : Bool :=
  isLabelStart c || c = '-' || c.toNat = 0xb7 || inRanges [(0x300, 0x36f), (0x203f, 0x2040)] c

/-- A character that stands for itself behind a backslash in a name. -/
def isNameEscape (c : Char) : Bool :=
  "_~.-!$&'()*+,;=/?#@%".toList.contains c

/-- The local part of a name, `seen` holding what has been read, last character first; the last
`points` of it are points that do not belong to the name if it ends here. -/
def takeLocal? (seen : List Char) (points : Nat) (cs : List Char) :
    Option (List Char × List Char) :=
  match cs with
  | '%' :: a :: b :: rest =>
    if isHexDigit a && isHexDigit b then takeLocal? (b :: a :: '%' :: seen) 0 rest else none
  | '\\' :: c :: rest => if isNameEscape c then takeLocal? (c :: seen) 0 rest else none
  | c :: rest =>
    if c = '%' || c = '\\' then none
    else if c = ':' || (if seen.isEmpty then isLabelStart c else isNameChar c) then
      takeLocal? (c :: seen) 0 rest
    else if c = '.' && !seen.isEmpty then takeLocal? ('.' :: seen) (points + 1) rest
    else some ((seen.drop points).reverse, List.replicate points '.' ++ cs)
  | [] => some ((seen.drop points).reverse, List.replicate points '.')

/-- The longest start of a text that the test accepts and that does not end with a point, besides
points inside it. -/
def takeDotted (accepts : Char → Bool) (cs : List Char) : List Char × List Char :=
  let run := cs.takeWhile fun c => accepts c || c = '.'
  let name := (run.reverse.dropWhile (· = '.')).reverse
  (name, cs.drop name.length)

/-- The label of a blank node. -/
def takeLabel? (cs : List Char) : Option (List Char × List Char) :=
  if cs.head?.any isLabelStart then some (takeDotted isNameChar cs) else none

/-! ### Numbers -/

/-- A sign in front of a text. -/
def takeSign (cs : List Char) : List Char × List Char :=
  match cs with
  | '+' :: rest => (['+'], rest)
  | '-' :: rest => (['-'], rest)
  | cs => ([], cs)

/-- The digits in front of a text. -/
def takeDigits (cs : List Char) : List Char × List Char :=
  cs.span Char.isDigit

/-- A point and the digits behind it. -/
def takeFraction (cs : List Char) : List Char × List Char :=
  match cs with
  | '.' :: rest =>
    let (digits, rest) := takeDigits rest
    ('.' :: digits, rest)
  | cs => ([], cs)

/-- A number with its datatype.  A point without digits belongs to it only in front of an
exponent. -/
def takeNumber? (cs : List Char) : Option ((String × String) × List Char) :=
  let (sign, rest) := takeSign cs
  let (whole, afterWhole) := takeDigits rest
  let (fraction, afterFraction) := takeFraction afterWhole
  let number := sign ++ whole ++ fraction
  let hasDigits := !whole.isEmpty || 1 < fraction.length
  match afterFraction.head?.filter fun c => c = 'e' || c = 'E' with
  | some e =>
    let (sign, rest) := takeSign afterFraction.tail
    let (exponent, rest) := takeDigits rest
    if exponent.isEmpty || !hasDigits then none
    else some ((String.ofList (number ++ e :: sign ++ exponent), xsd.double), rest)
  | none =>
    if 1 < fraction.length then some ((String.ofList number, xsd.decimal), afterFraction)
    else if whole.isEmpty then none
    else some ((String.ofList (sign ++ whole), xsd.integer), afterWhole)

end Ontology.Rdf
