import Ontology.Tree

/-!
# Reading JSON

A reader for one JSON value.  Integers of at most 64 bits stay integers, all other numbers are
read as doubles, in two roundings; strings hold no lone surrogates; values are nested at most 127
deep.

## Main definitions

* `Tree.ofJson?` — the tree of a JSON text.
-/

namespace Ontology.Tree

/-- How deep values may be nested. -/
def maxJsonDepth : Nat := 127

/-- Drops blanks, tabs and line ends. -/
def skipJsonBlanks (cs : List Char) : List Char :=
  cs.dropWhile fun c => c = ' ' ∨ c = '\t' ∨ c = '\n' ∨ c = '\r'

/-! ### Strings -/

/-- The value of a hexadecimal digit. -/
def hexValue? (c : Char) : Option Nat :=
  if c.isDigit then some (c.toNat - '0'.toNat)
  else if 'a' ≤ c ∧ c ≤ 'f' then some (c.toNat - 'a'.toNat + 10)
  else if 'A' ≤ c ∧ c ≤ 'F' then some (c.toNat - 'A'.toNat + 10)
  else none

/-- The value of hexadecimal digits. -/
def hexNumber? (cs : List Char) : Option Nat :=
  cs.foldlM (fun n c => (hexValue? c).map (n * 16 + ·)) 0

/-- The character behind a simple escape. -/
def jsonEscape? : Char → Option Char
  | '"' => some '"'
  | '\\' => some '\\'
  | '/' => some '/'
  | 'b' => some '\x08'
  | 'f' => some '\x0c'
  | 'n' => some '\n'
  | 'r' => some '\r'
  | 't' => some '\t'
  | _ => none

/-- The character of a surrogate pair. -/
def ofSurrogates? (high low : Nat) : Option Char :=
  if 0xD800 ≤ high ∧ high < 0xDC00 ∧ 0xDC00 ≤ low ∧ low < 0xE000 then
    some (Char.ofNat (0x10000 + (high - 0xD800) * 0x400 + (low - 0xDC00)))
  else none

/-- The rest of a string after its opening quote; `seen` holds its characters so far, last one
first. -/
def jsonStringTail? (seen : List Char) : List Char → Option (String × List Char)
  | [] => none
  | '"' :: rest => some (String.ofList seen.reverse, rest)
  | '\\' :: 'u' :: a :: b :: c :: d :: '\\' :: 'u' :: e :: f :: g :: h :: rest => do
    let first ← hexNumber? [a, b, c, d]
    if 0xD800 ≤ first ∧ first < 0xE000 then
      let char ← ofSurrogates? first (← hexNumber? [e, f, g, h])
      jsonStringTail? (char :: seen) rest
    else jsonStringTail? (Char.ofNat first :: seen) ('\\' :: 'u' :: e :: f :: g :: h :: rest)
  | '\\' :: 'u' :: a :: b :: c :: d :: rest => do
    let code ← hexNumber? [a, b, c, d]
    if 0xD800 ≤ code ∧ code < 0xE000 then none
    else jsonStringTail? (Char.ofNat code :: seen) rest
  | '\\' :: c :: rest => do jsonStringTail? ((← jsonEscape? c) :: seen) rest
  | c :: rest => if c.toNat < 0x20 then none else jsonStringTail? (c :: seen) rest
termination_by cs => cs.length

/-! ### Numbers -/

/-- Takes in digits after those of `n` as long as the number fits into 64 bits; the others are
left. -/
def takeFitting (n : Nat) : List Char → Nat × List Char
  | [] => (n, [])
  | c :: rest =>
    let longer := n * 10 + Binary64.digitsValue [c]
    if Nat.pow 2 64 ≤ longer then (n, c :: rest) else takeFitting longer rest

/-- The largest power of ten that a double is multiplied with or divided by at once. -/
def maxScale : Nat := 308

/-- A double times a power of ten, rounded after each step; out of range there is none. -/
def scale? (x : Binary64) (exponent : Int) : Option Binary64 :=
  if exponent < -(maxScale : Int) then
    if x.ratio.1 = 0 then some x
    else scale? (x.quotient (.ofDecimal false 1 maxScale)) (exponent + maxScale)
  else if exponent < 0 then some (x.quotient (.ofDecimal false 1 (-exponent)))
  else if x.ratio.1 = 0 then some x
  else
    let scaled := x.product (.ofDecimal false 1 exponent)
    if exponent ≤ maxScale ∧ scaled.isFinite then some scaled else none
termination_by (-exponent).toNat
decreasing_by unfold maxScale at *; omega

/-- A number from its sign, its digits, the digits after the point and the exponent.  What is no
integer of at most 64 bits is rounded twice: as many digits as fit into 64 bits, then the product
with the power of ten. -/
def jsonNumber? (negative : Bool) (whole : List Char) (fraction : Option (List Char))
    (exponent : Option Int) : Option Tree :=
  let (n, left) := takeFitting 0 whole
  if fraction.isNone ∧ exponent.isNone ∧ left.isEmpty then
    if negative then
      some (if n = 0 ∨ Nat.pow 2 63 < n then .float (.ofRatio true n 1) else .int (-n))
    else some (.int n)
  else
    let digits := fraction.getD []
    let (n, unread) := takeFitting n digits
    let places : Int := (left.length : Int) - (digits.length - unread.length : Nat)
    (scale? (.ofRatio negative n 1) (exponent.getD 0 + places)).map .float

/-- Reads the digits after a point, if there is one. -/
def takeFraction? : List Char → Option (Option (List Char) × List Char)
  | '.' :: rest =>
    let digits := rest.takeWhile Char.isDigit
    if digits.isEmpty then none else some (some digits, rest.dropWhile Char.isDigit)
  | cs => some (none, cs)

/-- Reads an exponent, if there is one. -/
def takeExponent? : List Char → Option (Option Int × List Char)
  | c :: rest =>
    if c = 'e' ∨ c = 'E' then
      let (negative, rest) := Binary64.takeSign rest
      let digits := rest.takeWhile Char.isDigit
      let n : Int := Binary64.digitsValue digits
      if digits.isEmpty then none
      else some (some (if negative then -n else n), rest.dropWhile Char.isDigit)
    else some (none, c :: rest)
  | [] => some (none, [])

/-- Reads a number. -/
def takeJsonNumber? (cs : List Char) : Option (Tree × List Char) := do
  let (negative, cs) : Bool × List Char :=
    match cs with
    | '-' :: rest => (true, rest)
    | cs => (false, cs)
  let whole := cs.takeWhile Char.isDigit
  if whole.isEmpty ∨ (whole.head? = some '0' ∧ whole.length ≠ 1) then none
  else
    let (fraction, rest) ← takeFraction? (cs.dropWhile Char.isDigit)
    let (exponent, rest) ← takeExponent? rest
    return (← jsonNumber? negative whole fraction exponent, rest)

/-! ### Values -/

/-- Removes a word from the front. -/
def takeWord? (word : String) (cs : List Char) : Option (List Char) :=
  if word.toList.isPrefixOf cs then some (cs.drop word.length) else none

mutual

/-- Reads a value that stands at most `depth` levels above the deepest allowed one.  Each call
uses one unit of `fuel`, of which the length of the text is enough. -/
def takeJson? (fuel depth : Nat) (cs : List Char) : Option (Tree × List Char) :=
  match fuel with
  | 0 => none
  | fuel + 1 =>
    match skipJsonBlanks cs with
    | '"' :: rest => do
      let (text, rest) ← jsonStringTail? [] rest
      return (.string text, rest)
    | '[' :: rest =>
      if depth = 0 then none
      else
        match skipJsonBlanks rest with
        | ']' :: rest => some (.sequence [], rest)
        | rest => do
          let (items, rest) ← takeJsonItems? fuel (depth - 1) rest
          return (.sequence items, rest)
    | '\x7b' :: rest =>
      if depth = 0 then none
      else
        match skipJsonBlanks rest with
        | '\x7d' :: rest => some (.mapping [], rest)
        | rest => do
          let (entries, rest) ← takeJsonEntries? fuel (depth - 1) rest
          return (.mapping entries, rest)
    | 'n' :: rest => (takeWord? "ull" rest).map fun rest => (.null, rest)
    | 't' :: rest => (takeWord? "rue" rest).map fun rest => (.bool true, rest)
    | 'f' :: rest => (takeWord? "alse" rest).map fun rest => (.bool false, rest)
    | rest => takeJsonNumber? rest

/-- Reads the items of an array up to its end. -/
def takeJsonItems? (fuel depth : Nat) (cs : List Char) : Option (List Tree × List Char) :=
  match fuel with
  | 0 => none
  | fuel + 1 => do
    let (item, rest) ← takeJson? fuel depth cs
    match skipJsonBlanks rest with
    | ',' :: rest =>
      let (items, rest) ← takeJsonItems? fuel depth rest
      return (item :: items, rest)
    | ']' :: rest => return ([item], rest)
    | _ => none

/-- Reads the entries of an object up to its end. -/
def takeJsonEntries? (fuel depth : Nat) (cs : List Char) :
    Option (List (Tree × Tree) × List Char) :=
  match fuel with
  | 0 => none
  | fuel + 1 =>
    match skipJsonBlanks cs with
    | '"' :: rest => do
      let (key, rest) ← jsonStringTail? [] rest
      match skipJsonBlanks rest with
      | ':' :: rest =>
        let (value, rest) ← takeJson? fuel depth rest
        match skipJsonBlanks rest with
        | ',' :: rest =>
          let (entries, rest) ← takeJsonEntries? fuel depth rest
          return ((.string key, value) :: entries, rest)
        | '\x7d' :: rest => return ([(.string key, value)], rest)
        | _ => none
      | _ => none
    | _ => none

end

/-- The tree of a JSON text.  Entries with equal keys are all kept. -/
def ofJson? (text : String) : Option Tree := do
  let (value, rest) ← takeJson? (2 * text.length + 2) maxJsonDepth text.toList
  if (skipJsonBlanks rest).isEmpty then some value else none

end Ontology.Tree
