/-!
# Reachability

The nodes of a finite graph that are reached from a node in any number of steps, found layer by
layer.

## Main definitions

* `closure` — the nodes reached from a list of nodes within a number of layers.
* `reaches` — one node is reached from another one.
-/

namespace Ontology

variable {α : Type} [DecidableEq α]

/-- The members of `found` that are new to `seen`, each once. -/
def freshNodes (seen found : List α) : List α :=
  found.foldl (fun fresh a => if a ∈ seen ∨ a ∈ fresh then fresh else fresh ++ [a]) []

/-- Adds to `seen` what is reached from its latest part `frontier` within `layers` steps. -/
def closure (next : α → List α) : Nat → List α → List α → List α
  | 0, seen, _ => seen
  | layers + 1, seen, frontier =>
    let fresh := freshNodes seen (frontier.flatMap next)
    if fresh.isEmpty then seen else closure next layers (seen ++ fresh) fresh

/-- The node `goal` is reached from `start` in a graph of at most `size` nodes with successors. -/
def reaches (next : α → List α) (size : Nat) (start goal : α) : Bool :=
  goal ∈ closure next (size + 1) [start] [start]

end Ontology
