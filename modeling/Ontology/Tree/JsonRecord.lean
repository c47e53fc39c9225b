import Ontology.Tree.JsonReader

/-!
# Reading records from JSON

A record is an object, or an array that gives the first fields by their places.  A field may be
left out and then keeps the value it had; it may be given once.  The values of other names are
passed over: they have to be well formed, but a number may have any size, a text may hold lone
surrogates, and there is no limit to the depth.

## Main definitions

* `Json.skipValue?` — what follows a value.
* `Json.Field`, `Json.record?` — a field of a record and the reader of a record.
-/

namespace Ontology.Json

open Ontology.Tree

/-! ### Passing over values -/

/-- What follows a text, from behind its opening quote. -/
def skipString? : List Char → Option (List Char)
  | '"' :: rest => some rest
  | '\\' :: 'u' :: a :: b :: c :: d :: rest =>
    if (hexNumber? [a, b, c, d]).isSome then skipString? rest else none
  | '\\' :: c :: rest => if (jsonEscape? c).isSome then skipString? rest else none
  | c :: rest => if c.toNat < 0x20 then none else skipString? rest
  | [] => none

/-- The digits in front of the point of a number, which have no zero before them, and what follows
them. -/
def takeWhole? (cs : List Char) : Option (List Char × List Char) :=
  let whole := cs.takeWhile Char.isDigit
  if whole.isEmpty ∨ (whole.head? = some '0' ∧ whole.length ≠ 1) then none
  else some (whole, cs.dropWhile Char.isDigit)

/-- What follows a number. -/
def skipNumber? (cs : List Char) : Option (List Char) := do
  let (_, rest) ← takeWhole? (if cs.head? = some '-' then cs.tail else cs)
  let (_, rest) ← takeFraction? rest
  let (_, rest) ← takeExponent? rest
  return rest

/-- What follows a value that is no array and no object. -/
def skipScalar? : List Char → Option (List Char)
  | 'n' :: rest => takeWord? "ull" rest
  | 't' :: rest => takeWord? "rue" rest
  | 'f' :: rest => takeWord? "alse" rest
  | '"' :: rest => skipString? rest
  | rest => skipNumber? rest

/-- What follows a name and its colon. -/
def skipName? (cs : List Char) : Option (List Char) :=
  match skipJsonBlanks cs with
  | '"' :: rest =>
    match (skipString? rest).map skipJsonBlanks with
    | some (':' :: rest) => some rest
    | _ => none
  | _ => none

/-- From behind a value inside the given brackets, innermost first, to the next value inside some
of them, or to the end of the outermost one. -/
def skipEnds? : List Char → List Char → Option (List Char × List Char)
  | [], cs => some ([], cs)
  | bracket :: outer, cs =>
    match bracket, skipJsonBlanks cs with
    | '[', ',' :: rest => some (bracket :: outer, rest)
    | '[', ']' :: rest => skipEnds? outer rest
    | '\x7b', ',' :: rest => (skipName? rest).map (bracket :: outer, ·)
    | '\x7b', '\x7d' :: rest => skipEnds? outer rest
    | _, _ => none

/-- What follows a value that stands inside the given brackets.  Each step uses one unit of
`fuel`, of which the length of the text is enough. -/
def skipInside? (fuel : Nat) (brackets cs : List Char) : Option (List Char) :=
  match fuel with
  | 0 => none
  | fuel + 1 =>
    let next : Option (List Char × List Char) :=
      match skipJsonBlanks cs with
      | '[' :: rest =>
        match skipJsonBlanks rest with
        | ']' :: rest => skipEnds? brackets rest
        | rest => some ('[' :: brackets, rest)
      | '\x7b' :: rest =>
        match skipJsonBlanks rest with
        | '\x7d' :: rest => skipEnds? brackets rest
        | rest => (skipName? rest).map ('\x7b' :: brackets, ·)
      | rest => (skipScalar? rest).bind (skipEnds? brackets)
    match next with
    | some ([], rest) => some rest
    | some (brackets, rest) => skipInside? fuel brackets rest
    | none => none

/-- What follows a value. -/
def skipValue? (cs : List Char) : Option (List Char) :=
  skipInside? (cs.length + 1) [] cs

/-! ### Fields -/

/-- A field of a record: its name, and how its value is read into the record. -/
structure Field (α : Type) where
  name : String
  read? : α → List Char → Option (α × List Char)

/-- A field that holds a truth value. -/
def Field.bool {α : Type} (name : String) (set : α → Bool → α) : Field α where
  name
  read? r cs :=
    match skipJsonBlanks cs with
    | 't' :: rest => (takeWord? "rue" rest).map (set r true, ·)
    | 'f' :: rest => (takeWord? "alse" rest).map (set r false, ·)
    | _ => none

/-- A field that holds a text. -/
def Field.text {α : Type} (name : String) (set : α → String → α) : Field α where
  name
  read? r cs :=
    match skipJsonBlanks cs with
    | '"' :: rest => (jsonStringTail? [] rest).map fun (text, rest) => (set r text, rest)
    | _ => none

/-- A field that holds a natural number of at most 64 bits. -/
def Field.count {α : Type} (name : String) (set : α → Nat → α) : Field α where
  name
  read? r cs := do
    let (digits, rest) ← takeWhole? (skipJsonBlanks cs)
    let n := Binary64.digitsValue digits
    if n < Nat.pow 2 64 then some (set r n, rest) else none

/-! ### Records -/

/-- Reads the fields of an object up to its end; `seen` holds the names so far. -/
def members? {α : Type} (fields : List (Field α)) (fuel : Nat) (seen : List String) (r : α)
    (cs : List Char) : Option (α × List Char) :=
  match fuel, skipJsonBlanks cs with
  | fuel + 1, '"' :: rest => do
    let (name, rest) ← jsonStringTail? [] rest
    match skipJsonBlanks rest with
    | ':' :: rest =>
      let (r, rest) ←
        match fields.find? (·.name = name) with
        | some field => if seen.contains name then none else field.read? r rest
        | none => (skipValue? rest).map (r, ·)
      match skipJsonBlanks rest with
      | ',' :: rest => members? fields fuel (name :: seen) r rest
      | '\x7d' :: rest => return (r, rest)
      | _ => none
    | _ => none
  | _, _ => none

/-- Reads the items of an array into the fields, up to its end. -/
def places? {α : Type} (r : α) (cs : List Char) : List (Field α) → Option (α × List Char)
  | [] => none
  | field :: fields => do
    let (r, rest) ← field.read? r cs
    match skipJsonBlanks rest with
    | ',' :: rest => places? r rest fields
    | ']' :: rest => return (r, rest)
    | _ => none

/-- Reads a record over the values that its fields have so far. -/
def record? {α : Type} (fields : List (Field α)) (r : α) (cs : List Char) :
    Option (α × List Char) :=
  match skipJsonBlanks cs with
  | '\x7b' :: rest =>
    match skipJsonBlanks rest with
    | '\x7d' :: rest => some (r, rest)
    | rest => members? fields rest.length [] r rest
  | '[' :: rest =>
    match skipJsonBlanks rest with
    | ']' :: rest => some (r, rest)
    | rest => places? r rest fields
  | _ => none

/-- A field that holds a record, which starts from `start`. -/
def Field.record {α β : Type} (name : String) (fields : List (Field β)) (start : β)
    (set : α → β → α) : Field α where
  name
  read? r cs := (record? fields start cs).map fun (value, rest) => (set r value, rest)

/-- The record of a text that holds nothing else. -/
def ofText? {α : Type} (fields : List (Field α)) (start : α) (text : String) : Option α := do
  let (r, rest) ← record? fields start text.toList
  if (skipJsonBlanks rest).isEmpty then some r else none

end Ontology.Json
