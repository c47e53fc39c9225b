import Ontology.Binary64

/-!
# Writing doubles in decimal

A double is written with the fewest digits that read back as the same double; of several such
decimals the nearest one is taken.

## Main definitions

* `Binary64.shortest` — those digits, by exact arithmetic on one decimal grid after the other.
* `Binary64.positional` — without an exponent and without a point in whole numbers.
* `Binary64.scientific` — with a point in moderate numbers and an exponent in the others.
-/

namespace Ontology.Binary64

/-- The number `digits * 10 ^ exponent`. -/
structure Decimal where
  digits : Nat
  exponent : Int
  deriving DecidableEq, Repr

/-- Which of two equally near decimals is taken. -/
inductive Tie where
  | up
  | even
  deriving DecidableEq, Repr

/-- Moves the trailing zeros of the digits into the exponent. -/
def Decimal.trim (d : Decimal) : Decimal :=
  if h : d.digits ≠ 0 ∧ d.digits % 10 = 0 then
    Decimal.trim ⟨d.digits / 10, d.exponent + 1⟩
  else d
termination_by d.digits
decreasing_by omega

/-- The reals that round to `mantissa * 2 ^ exponent`, in quarters of `2 ^ exponent`, seen from
the grid of the multiples of a power of ten: a grid point `d` stands at `d * grid`, the number
itself at `4 * mantissa * unit`. -/
structure Neighbourhood where
  mantissa : Nat
  unit : Nat
  grid : Nat
  /-- Quarters below the number. -/
  below : Nat

/-- The neighbourhood of `mantissa * 2 ^ exponent` on the grid of `10 ^ power`.  Below a power of
two the doubles lie twice as close. -/
def Neighbourhood.onGrid (mantissa : Nat) (exponent power : Int) : Neighbourhood where
  mantissa := mantissa
  unit := Nat.pow 2 (exponent - 2).toNat * Nat.pow 10 (-power).toNat
  grid := Nat.pow 2 (2 - exponent).toNat * Nat.pow 10 power.toNat
  below := if mantissa = Binary64.fractionCount ∧ exponent ≠ -1074 then 1 else 2

namespace Neighbourhood

/-- The grid point at or below the number. -/
def floor (n : Neighbourhood) : Nat :=
  4 * n.mantissa * n.unit / n.grid

/-- The grid point reads back as the number; the ends of the interval do so when the mantissa is
even. -/
def holds (n : Neighbourhood) (d : Nat) : Bool :=
  let low := (4 * n.mantissa - n.below) * n.unit
  let high := (4 * n.mantissa + 2) * n.unit
  if n.mantissa % 2 = 0 then low ≤ d * n.grid ∧ d * n.grid ≤ high
  else low < d * n.grid ∧ d * n.grid < high

/-- The nearest grid point that reads back as the number. -/
def nearest? (n : Neighbourhood) (tie : Tie) : Option Nat :=
  let d := n.floor
  match n.holds d, n.holds (d + 1) with
  | false, false => none
  | true, false => some d
  | false, true => some (d + 1)
  | true, true =>
    let below := 4 * n.mantissa * n.unit - d * n.grid
    let above := (d + 1) * n.grid - 4 * n.mantissa * n.unit
    if below < above then some d
    else if above < below then some (d + 1)
    else match tie with
      | .up => some (d + 1)
      | .even => some (d + d % 2)

end Neighbourhood

/-- The power of ten of the leading digit of `mantissa * 2 ^ exponent`. -/
def leadingPower (mantissa : Nat) (exponent : Int) : Int :=
  let estimate := ((mantissa.log2 : Int) + exponent) * 30103 / 100000
  ([estimate + 1, estimate].find? fun power =>
    (Neighbourhood.onGrid mantissa exponent power).floor ≠ 0).getD (estimate - 1)

/-- The shortest decimal that reads back as `mantissa * 2 ^ exponent`. -/
def shortest (tie : Tie) (mantissa : Nat) (exponent : Int) : Decimal :=
  let lead := leadingPower mantissa exponent
  let attempt (places : Nat) : Option Decimal :=
    let power := lead - places
    ((Neighbourhood.onGrid mantissa exponent power).nearest? tie).map (⟨·, power⟩)
  (((List.range 17).findSome? attempt).getD ⟨mantissa, exponent⟩).trim

/-! ### Texts -/

/-- The decimal digits of a natural number. -/
def digitChars (n : Nat) : List Char :=
  Nat.toDigits 10 n

/-- Digits with a point before the place of `10 ^ exponent`'s unit digit; a whole number ends in
`wholeMark`. -/
def Decimal.pointed (d : Decimal) (wholeMark : String) : String :=
  let digits := digitChars d.digits
  if 0 ≤ d.exponent then
    String.ofList (digits ++ List.replicate d.exponent.toNat '0') ++ wholeMark
  else
    let places := (-d.exponent).toNat
    let padded := List.replicate (places + 1 - digits.length) '0' ++ digits
    String.ofList (padded.take (padded.length - places)) ++ "."
      ++ String.ofList (padded.drop (padded.length - places))

/-- One digit, a point if more follow, and a signed exponent. -/
def Decimal.withExponent (d : Decimal) : String :=
  let digits := digitChars d.digits
  let power := d.exponent + (digits.length - 1 : Nat)
  let tail := digits.drop 1
  String.ofList (digits.take 1) ++ (if tail.isEmpty then "" else "." ++ String.ofList tail)
    ++ (if power < 0 then "e-" else "e+") ++ toString power.natAbs

/-- A minus for negative numbers. -/
def signText (negative : Bool) : String :=
  if negative then "-" else ""

/-- The text of a double without an exponent: `1`, `-0`, `0.5`, `NaN`, `inf`. -/
def positional (x : Binary64) : String :=
  match x.view with
  | .nan => "NaN"
  | .infinite negative => signText negative ++ "inf"
  | .finite negative mantissa exponent =>
    signText negative ++
      if mantissa = 0 then "0" else (shortest .up mantissa exponent).pointed ""

/-- The text of a finite double in which whole numbers end in `.0` and numbers below `1e-5` or
from `1e16` on have an exponent; there is none for the other values. -/
def scientific? (x : Binary64) : Option String :=
  match x.view with
  | .nan | .infinite _ => none
  | .finite negative mantissa exponent =>
    some <| signText negative ++
      if mantissa = 0 then "0.0"
      else
        let d := shortest .even mantissa exponent
        let point := d.exponent + (digitChars d.digits).length
        if -5 < point ∧ point ≤ 16 then d.pointed ".0" else d.withExponent

end Ontology.Binary64
