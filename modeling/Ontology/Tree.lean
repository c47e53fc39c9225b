import Ontology.Binary64

/-!
# Data trees

The value of a YAML or JSON text: scalars, sequences, and mappings whose entries keep the order
in which they were written.

## Main definitions

* `Tree` — the trees.
* `Tree.sameKey` — equality of mapping keys, which looks past the order of the entries of a key
  that is itself a mapping.
* `Tree.lookup?`, `Tree.eraseKey` — entries by their key.
-/

namespace Ontology

/-- The value of a YAML or JSON text. -/
inductive Tree where
  | null
  | bool (value : Bool)
  /-- An integer of at most 64 bits, signed or not. -/
  | int (value : Int)
  | float (value : Binary64)
  | string (text : String)
  | sequence (items : List Tree)
  /-- Entries with pairwise different keys, in the order of the text. -/
  | mapping (entries : List (Tree × Tree))
  /-- A value with an application tag, given without its exclamation mark. -/
  | tagged (tag : String) (value : Tree)
  deriving Repr, Inhabited

namespace Tree

/-- The value below all tags. -/
def untagged : Tree → Tree
  | .tagged _ value => value.untagged
  | value => value

/-- The text of a string, tagged or not. -/
def text? (t : Tree) : Option String :=
  match t.untagged with
  | .string text => some text
  | _ => none

/-- The items of a sequence, tagged or not. -/
def items? (t : Tree) : Option (List Tree) :=
  match t.untagged with
  | .sequence items => some items
  | _ => none

/-- A mapping, tagged or not. -/
def isMapping (t : Tree) : Bool :=
  match t.untagged with
  | .mapping _ => true
  | _ => false

/-- A mapping with texts as keys. -/
def object (entries : List (String × Tree)) : Tree :=
  .mapping (entries.map fun (key, value) => (.string key, value))

/-! ### Decidable equality -/

mutual

/-- The test for equal trees. -/
def identical : Tree → Tree → Bool
  | .null, .null => true
  | .bool a, .bool b => a = b
  | .int a, .int b => a = b
  | .float a, .float b => a = b
  | .string a, .string b => a = b
  | .sequence as, .sequence bs => identicalItems as bs
  | .mapping as, .mapping bs => identicalEntries as bs
  | .tagged s a, .tagged t b => s = t && identical a b
  | _, _ => false
termination_by structural a => a

/-- The test for equal lists of items. -/
def identicalItems : List Tree → List Tree → Bool
  | [], [] => true
  | a :: as, b :: bs => identical a b && identicalItems as bs
  | _, _ => false
termination_by structural as => as

/-- The test for equal lists of entries. -/
def identicalEntries : List (Tree × Tree) → List (Tree × Tree) → Bool
  | [], [] => true
  | (key, value) :: as, b :: bs =>
    identical key b.1 && identical value b.2 && identicalEntries as bs
  | _, _ => false
termination_by structural as => as

end

mutual

theorem identical_iff : ∀ a b : Tree, identical a b = true ↔ a = b
  | .null, b => by cases b <;> simp [identical]
  | .bool _, b => by cases b <;> simp [identical]
  | .int _, b => by cases b <;> simp [identical]
  | .float _, b => by cases b <;> simp [identical]
  | .string _, b => by cases b <;> simp [identical]
  | .sequence as, b => by cases b <;> simp [identical, identicalItems_iff as]
  | .mapping as, b => by cases b <;> simp [identical, identicalEntries_iff as]
  | .tagged _ a, b => by cases b <;> simp [identical, identical_iff a]
termination_by structural a => a

theorem identicalItems_iff : ∀ as bs : List Tree, identicalItems as bs = true ↔ as = bs
  | [], bs => by cases bs <;> simp [identicalItems]
  | a :: as, bs => by
    cases bs <;> simp [identicalItems, identical_iff a, identicalItems_iff as]
termination_by structural as => as

theorem identicalEntries_iff :
    ∀ as bs : List (Tree × Tree), identicalEntries as bs = true ↔ as = bs
  | [], bs => by cases bs <;> simp [identicalEntries]
  | (key, value) :: as, bs => by
    cases bs <;>
      simp [identicalEntries, identical_iff key, identical_iff value, identicalEntries_iff as,
        Prod.ext_iff]
termination_by structural as => as

end

instance : DecidableEq Tree :=
  fun a b => decidable_of_iff _ (identical_iff a b)

/-! ### Keys -/

mutual

/-- Equality of two keys.  Numbers are equal by value, the one value that is not a number equals
itself, and mappings are equal when they have equal entries in any order. -/
def sameKey : Tree → Tree → Bool
  | .null, .null => true
  | .bool a, .bool b => a == b
  | .int a, .int b => a == b
  | .float a, .float b => a.sameValue b || (a.view == .nan && b.view == .nan)
  | .string a, .string b => a == b
  | .sequence as, .sequence bs => sameItems as bs
  | .mapping as, .mapping bs => as.length == bs.length && entriesWithin as bs
  | .tagged s a, .tagged t b => s == t && sameKey a b
  | _, _ => false
termination_by structural a => a

/-- Item by item equality. -/
def sameItems : List Tree → List Tree → Bool
  | [], [] => true
  | a :: as, b :: bs => sameKey a b && sameItems as bs
  | _, _ => false
termination_by structural as => as

/-- Every entry of the first list has an equal one in the second. -/
def entriesWithin : List (Tree × Tree) → List (Tree × Tree) → Bool
  | [], _ => true
  | (key, value) :: rest, bs =>
    bs.any (fun entry => sameKey key entry.1 && sameKey value entry.2) && entriesWithin rest bs
termination_by structural as => as

end

/-- The key occurs in the entries. -/
def hasKey (entries : List (Tree × Tree)) (key : Tree) : Bool :=
  entries.any fun entry => sameKey entry.1 key

/-- The value under a string key. -/
def lookup? (entries : List (Tree × Tree)) (key : String) : Option Tree :=
  entries.findSome? fun
    | (.string name, value) => if name = key then some value else none
    | _ => none

/-- Removes the entry of a string key; the last entry takes its place. -/
def eraseKey (key : String) : List (Tree × Tree) → List (Tree × Tree)
  | [] => []
  | entry :: rest =>
    match entry with
    | (.string name, _) =>
      if name = key then
        match rest.getLast? with
        | none => []
        | some last => last :: rest.dropLast
      else entry :: eraseKey key rest
    | _ => entry :: eraseKey key rest

end Tree

end Ontology
