import Ontology.Yaml.Scalar

/-!
# YAML nodes

What a document says before its aliases are replaced: scalars and collections with their tags,
and aliases.  An alias names a *slot*.  A new name takes the slot numbered by the names known so
far, so a name that is declared twice and the next new name may share a slot; the node in a slot
is the one that was declared for it last in the whole document, even behind the alias.

## Main definitions

* `Yaml.Node` — the nodes.
* `Yaml.Anchors` — the slots of the anchors declared so far.
* `Node.expand` — the tree that a node stands for.
-/

namespace Ontology.Yaml

/-- A node of a document. -/
inductive Node where
  | scalar (tag : Option Tag) (plain : Bool) (text : String)
  | sequence (tag : Option Tag) (items : List Node)
  | mapping (tag : Option Tag) (entries : List (Node × Node))
  | alias (slot : Nat)
  deriving Inhabited

/-- A missing value. -/
def Node.missing : Node := .scalar none true ""

/-! ### Anchors -/

/-- The anchors declared so far. -/
structure Anchors where
  /-- The slot of each name. -/
  slots : List (String × Nat)
  /-- Which declaration holds a slot, the latest first. -/
  holders : List (Nat × Nat)
  /-- The nodes of the declarations that have been read to their ends. -/
  nodes : List (Nat × Node)

namespace Anchors

/-- No anchors. -/
def empty : Anchors := ⟨[], [], []⟩

/-- Declares a name, and gives the number of the declaration. -/
def declare (anchors : Anchors) (name : String) : Nat × Anchors :=
  let slot := anchors.slots.length
  let number := anchors.holders.length
  (number,
    { anchors with
      slots := (name, slot) :: anchors.slots.filter (·.1 ≠ name)
      holders := (slot, number) :: anchors.holders })

/-- Notes the node of a declaration. -/
def complete (anchors : Anchors) (number : Nat) (node : Node) : Anchors :=
  { anchors with nodes := (number, node) :: anchors.nodes }

/-- The slot of a name. -/
def slot? (anchors : Anchors) (name : String) : Option Nat :=
  anchors.slots.lookup name

/-- The node in a slot. -/
def node? (anchors : Anchors) (slot : Nat) : Option Node :=
  (anchors.holders.lookup slot).bind fun number => anchors.nodes.lookup number

end Anchors

/-! ### Trees -/

/-- Expanding aliases, of which only so many may still be followed. -/
abbrev Expanding (α : Type) := StateT Nat (Except Fault) α

/-- The node that an alias stands for, and any other node itself. -/
def Node.target (anchors : Anchors) : Node → Expanding Node
  | .alias slot => do
    match ← get with
    | 0 => throw .tooManyAliases
    | left + 1 =>
      set left
      match anchors.node? slot with
      | some node => return node
      | none => throw .unknownAlias
  | node => return node

/-- A value with the tag of its node. -/
def withTag (tag : Option Tag) (t : Tree) : Tree :=
  match tag with
  | some (.application name) => .tagged name t
  | _ => t

/-- The tree that a node stands for, with at most `depth` collections inside each other.  The
keys of a mapping must differ. -/
def Node.expand (anchors : Anchors) (depth : Nat) (node : Node) : Expanding Tree := do
  match ← node.target anchors, depth with
  | .scalar tag plain text, _ =>
    match scalarValue tag plain text with
    | .ok t => return t
    | .error fault => throw fault
  | .alias _, _ => throw .unknownAlias
  | .sequence tag items, depth + 1 =>
    return withTag tag (.sequence (← items.mapM (Node.expand anchors depth)))
  | .mapping tag entries, depth + 1 =>
    let expandEntry (done : List (Tree × Tree)) (entry : Node × Node) := do
      let key ← Node.expand anchors depth entry.1
      if Tree.hasKey done key then throw .duplicateKey
      return done ++ [(key, ← Node.expand anchors depth entry.2)]
    return withTag tag (.mapping (← entries.foldlM expandEntry []))
  | _, 0 => throw .nestedTooDeep

end Ontology.Yaml
