/-!
# Arguments

The words behind a command: operands, and options, which have a long name behind two hyphens and
may have a short one of a single letter.  A value stands behind its option as a word of its own,
behind an equals sign, or right behind a short name; short names may be joined.

## Main definitions

* `OptionSpec` — an option that may be given.
* `Arguments` — operands and options; `Arguments.read?` reads them from words.
* `Arguments.split?` — the words around the first operand.
-/

namespace Ontology

/-- What an option takes. -/
inductive OptionValue where
  /-- Nothing: the option is given or not. -/
  | flag
  | text
  /-- A text that is not empty. -/
  | path
  | oneOf (words : List String)
  deriving DecidableEq, Repr

/-- A value that an option takes. -/
def OptionValue.accepts : OptionValue → String → Bool
  | .flag, value => value.isEmpty
  | .text, _ => true
  | .path, value => !value.isEmpty
  | .oneOf words, value => words.contains value

/-- An option that may be given, once. -/
structure OptionSpec where
  long : String
  short : Option Char := none
  value : OptionValue := .flag
  deriving DecidableEq, Repr

/-- Operands and options. -/
structure Arguments where
  operands : List String := []
  /-- The options given, by their long names, with their values. -/
  options : List (String × String) := []
  /-- The option whose value has to follow. -/
  waiting : Option OptionSpec := none
  /-- All words that follow are operands. -/
  isClosed : Bool := false
  deriving DecidableEq, Repr

namespace Arguments

/-- The value of an option. -/
def value? (a : Arguments) (long : String) : Option String :=
  a.options.lookup long

/-- The option is given. -/
def has (a : Arguments) (long : String) : Bool :=
  (a.value? long).isSome

/-! ### Reading -/

/-- Adds an option with a value that it takes. -/
def give? (a : Arguments) (o : OptionSpec) (value : String) : Option Arguments :=
  if a.has o.long ∨ !o.value.accepts value then none
  else some { a with options := a.options ++ [(o.long, value)], waiting := none }

/-- Adds an option whose value may be attached to it. -/
def begin? (a : Arguments) (o : OptionSpec) (attached : Option String) : Option Arguments :=
  match attached with
  | some value => if o.value = .flag then none else a.give? o value
  | none => if o.value = .flag then a.give? o "" else some { a with waiting := some o }

/-- Reads what stands behind two hyphens. -/
def long? (specs : List OptionSpec) (a : Arguments) (word : List Char) : Option Arguments := do
  let name := String.ofList (word.takeWhile (· ≠ '='))
  let o ← specs.find? (·.long = name)
  match word.dropWhile (· ≠ '=') with
  | [] => a.begin? o none
  | _ :: value => a.begin? o (some (String.ofList value))

/-- Reads what stands behind one hyphen. -/
def shorts? (specs : List OptionSpec) (a : Arguments) : List Char → Option Arguments
  | [] => some a
  | c :: rest => do
    let o ← specs.find? (·.short = some c)
    if o.value = .flag then shorts? specs (← a.give? o "") rest
    else
      match rest with
      | [] => a.begin? o none
      | '=' :: value => a.give? o (String.ofList value)
      | value => a.give? o (String.ofList value)

/-- The word is no operand: it has more than a hyphen and starts with one. -/
def isHyphenated (word : String) : Bool :=
  word.startsWith "-" && word ≠ "-"

/-- Reads one word. -/
def next? (specs : List OptionSpec) (a : Arguments) (word : String) : Option Arguments :=
  match a.waiting with
  | some o => if isHyphenated word then none else a.give? o word
  | none =>
    if a.isClosed ∨ !isHyphenated word then some { a with operands := a.operands ++ [word] }
    else
      match word.toList with
      | ['-', '-'] => some { a with isClosed := true }
      | '-' :: '-' :: name => a.long? specs name
      | _ :: names => a.shorts? specs names
      | [] => none

/-- Reads words; the last option has its value. -/
def read? (specs : List OptionSpec) (words : List String) : Option Arguments := do
  let a ← words.foldlM (next? specs) {}
  if a.waiting.isNone then some a else none

/-- Reads words up to the first operand that may be a command: the options before it, the operand
and the words behind it. -/
def split? (specs : List OptionSpec) (a : Arguments) :
    List String → Option (Arguments × String × List String)
  | [] => none
  | word :: rest =>
    if a.waiting.isNone && !a.isClosed && !isHyphenated word then some (a, word, rest)
    else do split? specs (← a.next? specs word) rest

end Arguments

end Ontology
