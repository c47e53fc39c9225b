/-!
# Double-precision numbers

A double is held as its 64 bits, so that equality of literals is equality of bits, and every
operation is exact arithmetic on natural numbers.

## Main definitions

* `Binary64` — the bits of a double; `Binary64.view` reads them as a sign, a mantissa and a
  binary exponent.
* `Binary64.ofRatio`, `Binary64.ofDecimal` — the double nearest to a quotient or to a decimal,
  a tie going to the even mantissa.
* `Binary64.sameValue` — equality as numbers: zeros agree whatever their sign, and a value that
  is not a number equals nothing.
* `Binary64.ofText?` — reads a decimal, `inf`, `infinity` or `nan`.
-/

namespace Ontology

/-- A double-precision number, given by its bits. -/
structure Binary64 where
  /-- Sign, eleven exponent bits and 52 fraction bits, from the highest bit down. -/
  bits : UInt64
  deriving DecidableEq, Hashable, Repr, Inhabited

namespace Binary64

/-- What the bits of a double stand for. -/
inductive View where
  /-- Not a number. -/
  | nan
  /-- An infinity. -/
  | infinite (negative : Bool)
  /-- The number `mantissa * 2 ^ exponent`, or its opposite. -/
  | finite (negative : Bool) (mantissa : Nat) (exponent : Int)
  deriving DecidableEq, Repr

/-- The bits of which only that of the sign is set. -/
def signBit : Nat := Nat.pow 2 63

/-- The number of values that the fraction bits can take. -/
def fractionCount : Nat := Nat.pow 2 52

/-- The sign bit. -/
def isNegative (x : Binary64) : Bool :=
  signBit ≤ x.bits.toNat

/-- The eleven exponent bits. -/
def exponentBits (x : Binary64) : Nat :=
  x.bits.toNat / fractionCount % 2048

/-- The 52 fraction bits. -/
def fractionBits (x : Binary64) : Nat :=
  x.bits.toNat % fractionCount

/-- Reads the bits. -/
def view (x : Binary64) : View :=
  if x.exponentBits = 2047 then
    if x.fractionBits = 0 then .infinite x.isNegative else .nan
  else if x.exponentBits = 0 then .finite x.isNegative x.fractionBits (-1074)
  else .finite x.isNegative (fractionCount + x.fractionBits) (x.exponentBits - 1075)

/-- Puts a sign before the 63 bits of an absolute value. -/
def ofMagnitude (negative : Bool) (magnitude : Nat) : Binary64 :=
  ⟨.ofNat (magnitude + if negative then signBit else 0)⟩

/-- Zero with a sign. -/
def zero (negative : Bool) : Binary64 :=
  ofMagnitude negative 0

/-- An infinity. -/
def infinity (negative : Bool) : Binary64 :=
  ofMagnitude negative (2047 * fractionCount)

/-- The value that is not a number. -/
def notANumber : Binary64 :=
  ofMagnitude false (2047 * fractionCount + fractionCount / 2)

/-- Neither infinite nor without value. -/
def isFinite (x : Binary64) : Bool :=
  x.exponentBits < 2047

/-- Equality as numbers. -/
def sameValue (x y : Binary64) : Bool :=
  match x.view, y.view with
  | .nan, _ | _, .nan => false
  | .finite _ 0 _, .finite _ 0 _ => true
  | _, _ => x = y

/-! ### Rounding -/

/-- The natural number nearest to `num / den`, a tie going to the even one. -/
def roundQuotient (num den : Nat) : Nat :=
  let quotient := num / den
  let rest := num % den
  if 2 * rest < den then quotient
  else if den < 2 * rest then quotient + 1
  else quotient + quotient % 2

/-- `num / den` divided by `2 ^ exponent`, as a numerator and a denominator. -/
def scaledRatio (num den : Nat) (exponent : Int) : Nat × Nat :=
  if exponent < 0 then (num * Nat.pow 2 (-exponent).toNat, den)
  else (num, den * Nat.pow 2 exponent.toNat)

/-- The exponent at which the mantissa of `num / den` is rounded: the one that leaves 53 bits,
but none below that of the smallest double. -/
def roundingExponent (num den : Nat) : Int :=
  let estimate : Int := (num.log2 : Int) - den.log2 - 52
  let (n, d) := scaledRatio num den estimate
  max (if n / d < fractionCount then estimate - 1 else estimate) (-1074)

/-- The double nearest to `num / den`. -/
def ofRatio (negative : Bool) (num den : Nat) : Binary64 :=
  if num = 0 then zero negative
  else
    let exponent := roundingExponent num den
    let (n, d) := scaledRatio num den exponent
    ofMagnitude negative
      (min ((exponent + 1074).toNat * fractionCount + roundQuotient n d) (2047 * fractionCount))

/-- The double nearest to `digits * 10 ^ exponent`.  Decimals far outside the range of doubles
are settled by their number of digits, so that the powers below stay small. -/
def ofDecimal (negative : Bool) (digits : Nat) (exponent : Int) : Binary64 :=
  let position := exponent + (Nat.toDigits 10 digits).length
  if digits = 0 ∨ position < -400 then zero negative
  else if 400 < position then infinity negative
  else if exponent < 0 then ofRatio negative digits (Nat.pow 10 (-exponent).toNat)
  else ofRatio negative (digits * Nat.pow 10 exponent.toNat) 1

/-- The double nearest to an integer. -/
def ofInt (n : Int) : Binary64 :=
  ofRatio (n < 0) n.natAbs 1

/-! ### Arithmetic -/

/-- The absolute value of a finite double, as a numerator and a denominator. -/
def ratio (x : Binary64) : Nat × Nat :=
  match x.view with
  | .finite _ mantissa exponent => scaledRatio mantissa 1 (-exponent)
  | _ => (0, 1)

/-- The product of finite doubles, rounded. -/
def product (x y : Binary64) : Binary64 :=
  ofRatio (x.isNegative != y.isNegative) (x.ratio.1 * y.ratio.1) (x.ratio.2 * y.ratio.2)

/-- The quotient of finite doubles, rounded; the divisor must not be zero. -/
def quotient (x y : Binary64) : Binary64 :=
  ofRatio (x.isNegative != y.isNegative) (x.ratio.1 * y.ratio.2) (x.ratio.2 * y.ratio.1)

/-! ### Reading text -/

/-- The value of a list of decimal digits. -/
def digitsValue (cs : List Char) : Nat :=
  cs.foldl (fun n c => n * 10 + (c.toNat - '0'.toNat)) 0

/-- Reads an optional sign; `true` stands for minus. -/
def takeSign : List Char → Bool × List Char
  | '-' :: rest => (true, rest)
  | '+' :: rest => (false, rest)
  | cs => (false, cs)

/-- Reads what may follow the digits of a decimal: nothing, or `e` and an exponent. -/
def exponentPart? : List Char → Option Int
  | [] => some 0
  | c :: rest =>
    if c = 'e' ∨ c = 'E' then
      let (negative, digits) := takeSign rest
      if digits.isEmpty ∨ !digits.all Char.isDigit then none
      else some (if negative then -(digitsValue digits : Int) else digitsValue digits)
    else none

/-- Reads an unsigned decimal: digits with at most one point among, before or after them, and an
optional exponent. -/
def decimalPart? (negative : Bool) (cs : List Char) : Option Binary64 :=
  let whole := cs.takeWhile Char.isDigit
  let (fraction, rest) : List Char × List Char :=
    match cs.dropWhile Char.isDigit with
    | '.' :: rest => (rest.takeWhile Char.isDigit, rest.dropWhile Char.isDigit)
    | rest => ([], rest)
  if whole.isEmpty ∧ fraction.isEmpty then none
  else
    (exponentPart? rest).map fun exponent =>
      ofDecimal negative (digitsValue (whole ++ fraction)) (exponent - fraction.length)

/-- Reads a number: an optional sign, then a decimal or, in any case of letters, `inf`,
`infinity` or `nan`. -/
def ofText? (text : String) : Option Binary64 :=
  let (negative, cs) := takeSign text.toList
  match String.ofList (cs.map Char.toLower) with
  | "inf" | "infinity" => some (infinity negative)
  | "nan" => some notANumber
  | _ => decimalPart? negative cs

end Binary64

end Ontology
