import Ontology.Yaml.Token
import Ontology.Tree.JsonReader

/-!
# The values of YAML scalars

A plain scalar without a tag stands for null, a truth value, a number or, failing these, its own
text; a quoted one stands for its text.  A core tag asks for one kind of value, and an
application tag is kept.

## Main definitions

* `Yaml.plainValue` — the value of a plain scalar.
* `Yaml.Tag` — what a tag asks for.
* `Yaml.scalarValue` — the value of any scalar with its tag.
-/

namespace Ontology.Yaml

/-- Reads null. -/
def isNullText (text : String) : Bool :=
  text ∈ ["null", "Null", "NULL", "~"]

/-- Reads a truth value. -/
def boolOfText? (text : String) : Option Bool :=
  if text ∈ ["true", "True", "TRUE"] then some true
  else if text ∈ ["false", "False", "FALSE"] then some false
  else none

/-! ### Integers -/

/-- The value of the digits of a base. -/
def ofDigits? (base : Nat) (digits : List Char) : Option Nat :=
  if digits.isEmpty then none
  else
    digits.foldlM (fun n c => do
      let d ← Tree.hexValue? c
      if d < base then some (n * base + d) else none) 0

/-- An optional base mark and digits; a leading zero needs a base mark. -/
def naturalOfText? : List Char → Option Nat
  | '0' :: 'x' :: digits => ofDigits? 16 digits
  | '0' :: 'o' :: digits => ofDigits? 8 digits
  | '0' :: 'b' :: digits => ofDigits? 2 digits
  | ['0'] => some 0
  | '0' :: _ => none
  | digits => ofDigits? 10 digits

/-- Reads an integer of any size: an optional sign, an optional base mark, digits. -/
def intOfText? (text : String) : Option Int :=
  match text.toList with
  | '-' :: rest => (naturalOfText? rest).map fun n => -(n : Int)
  | '+' :: rest => (naturalOfText? rest).map fun n => (n : Int)
  | cs => (naturalOfText? cs).map fun n => (n : Int)

/-- Only zeros and other digits, starting with a zero: a text, not a number. -/
def isPaddedDigits (text : String) : Bool :=
  let digits := (Binary64.takeSign text.toList).2
  1 < digits.length && digits.head? == some '0' && digits.all Char.isDigit

/-- The integer has at most so many bits, with or without one for the sign. -/
def hasBits (bits : Nat) (n : Int) : Bool :=
  -(Nat.pow 2 (bits - 1) : Int) ≤ n && n < Nat.pow 2 bits

/-- The tree of an integer: one of 64 bits; one of up to 128 bits cannot be held, and a larger
one is no integer. -/
def integerTree? (n : Int) : Option (Except Fault Tree) :=
  if hasBits 64 n then some (.ok (.int n))
  else if hasBits 128 n then some (.error .badScalar)
  else none

/-! ### Floats -/

/-- Reads a float: a decimal, an infinity written `.inf` or the value `.nan`. -/
def floatOfText? (text : String) : Option Binary64 :=
  if text ∈ [".inf", ".Inf", ".INF", "+.inf", "+.Inf", "+.INF"] then some (.infinity false)
  else if text ∈ ["-.inf", "-.Inf", "-.INF"] then some (.infinity true)
  else if text ∈ [".nan", ".NaN", ".NAN"] then some .notANumber
  else (Binary64.ofText? text).filter (·.isFinite)

/-! ### Values -/

/-- The value of a plain scalar without a tag. -/
def plainValue (text : String) : Except Fault Tree :=
  if text.isEmpty || isNullText text then .ok .null
  else
    match boolOfText? text with
    | some b => .ok (.bool b)
    | none =>
      match (intOfText? text).bind integerTree? with
      | some result => result
      | none =>
        if isPaddedDigits text then .ok (.string text)
        else .ok ((floatOfText? text).elim (.string text) .float)

/-! ### Tags -/

/-- What a tag asks for. -/
inductive Tag where
  /-- A name given by the application, without its exclamation mark. -/
  | application (name : String)
  /-- One of the kinds of the core, or a kind that is read as a text. -/
  | core (kind : String)
  deriving DecidableEq, Repr

/-- The front of the tags of the core kinds. -/
def coreTag : String := "tag:yaml.org,2002:"

/-- The name of an application tag behind its first exclamation mark: one more mark is dropped,
and the mark alone is a name. -/
def applicationName (text : String) : String :=
  if text.isEmpty ∨ text = "!" then "!"
  else if text.startsWith "!" then (text.drop 1).toString
  else text

/-- What the bytes of a tag in its full form ask for.  An application tag that is no text counts
as none. -/
def Tag.ofBytes? (bytes : List UInt8) : Option Tag :=
  match String.fromUTF8? ⟨bytes.toArray⟩ with
  | some text =>
    if text.startsWith "!" then some (.application (applicationName (text.drop 1).toString))
    else if text.startsWith coreTag then some (.core (text.drop coreTag.length).toString)
    else some (.core "")
  | none => if bytes.head? = some '!'.toUInt8 then none else some (.core "")

/-- The value of a scalar whose tag asks for one kind of value. -/
def coreValue (kind : String) (text : String) : Except Fault Tree :=
  let required (value : Option Tree) : Except Fault Tree := value.elim (.error .badScalar) .ok
  match kind with
  | "bool" => required ((boolOfText? text).map .bool)
  | "int" => ((intOfText? text).bind integerTree?).getD (.error .badScalar)
  | "float" => required ((floatOfText? text).map .float)
  | "null" => required (if isNullText text then some .null else none)
  | _ => .ok (.string text)

/-- The value of a scalar with an optional tag. -/
def scalarValue (tag : Option Tag) (plain : Bool) (text : String) : Except Fault Tree :=
  let untagged : Except Fault Tree := if plain then plainValue text else .ok (.string text)
  match tag with
  | none => untagged
  | some (.application name) => untagged.map (.tagged name)
  | some (.core kind) => coreValue kind text

end Ontology.Yaml
