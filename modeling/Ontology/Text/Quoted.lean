import Ontology.Text.Printable

/-!
# Quoted text

A text between double quotes in which quotes, backslashes and line ends are written by an escape
and characters that cannot be shown by their number.

## Main definitions

* `Text.quote` — the quoted form of a text.
* `Text.hexDigits` — lower case hexadecimal digits, padded to a width.
-/

namespace Ontology.Text

/-- The hexadecimal digits of a number, with zeros in front up to `width` digits. -/
def hexDigits (width n : Nat) : String :=
  let digits := Nat.toDigits 16 n
  String.ofList (List.replicate (width - digits.length) '0' ++ digits)

/-- How one character is written between the quotes. -/
def quoteChar (c : Char) : String :=
  match c with
  | '"' => "\\\""
  | '\\' => "\\\\"
  | '\n' => "\\n"
  | '\r' => "\\r"
  | '\t' => "\\t"
  | '\x00' => "\\0"
  | c => if isPrintable c then c.toString else "\\u\x7b" ++ hexDigits 0 c.toNat ++ "\x7d"

/-- The text between double quotes. -/
def quote (text : String) : String :=
  "\"" ++ String.join (text.toList.map quoteChar) ++ "\""

end Ontology.Text
