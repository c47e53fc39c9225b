import Mathlib.Data.List.Infix
import Ontology.World.Graph

/-!
# Expressions in a graph

A graph holds an expression at a node if the triples around the node are those that OWL writes for
it: no triple is missing and none is added, at any depth.  The triples of an expression hang on
blank nodes of their own, so they keep their meaning in every graph that says nothing else about
these nodes, however many other expressions it holds.

## Main definitions

* `Rdf.Graph.Describes` — the triples with a blank node as their subject.
* `Rdf.Graph.IsList` — a node is the first cell of a list.
* `World.Encodes` — a graph holds an expression at a node.
* `Rdf.Triple.IsBelow`, `Rdf.Graph.HoldsApart` — a graph says of the nodes made for a place what
  some triples say, and nothing else.

## Main results

* `World.isBelow_of_mem_expressionTriples` — an expression describes nodes made for its place.
* `World.encodes_of_holdsApart` — **a graph holds an expression whose triples it holds apart.**
-/

namespace Ontology

open Rdf (Triple)

/-! ### What a graph holds -/

namespace Rdf.Graph

/-- The triples with a blank node as their subject are those of some predicates and objects. -/
def Describes (g : Graph) (label : BlankLabel) (rows : List (String × Term)) : Prop :=
  ∀ predicate object, ⟨.blank label, predicate, object⟩ ∈ g.triples ↔ (predicate, object) ∈ rows

/-- A node is the first cell of a list of nodes. -/
def IsList (g : Graph) : Term → List Term → Prop
  | node, [] => node = .iri rdf.nil
  | node, item :: items => ∃ label next, node = .blank label ∧
      g.Describes label [(rdf.first, item), (rdf.rest, next)] ∧ g.IsList next items

end Rdf.Graph

/-- The predicate that leads from a restriction to its filler. -/
def Quantifier.iri : Quantifier → String
  | .some => Rdf.owl.someValuesFrom
  | .value => Rdf.owl.hasValue

namespace World

/-- A graph holds a property read in one direction at a node. -/
def EncodesRole (w : World) (g : Rdf.Graph) (node : Rdf.Term) : PropertyExpression → Prop
  | .named p => node = .iri (w.propertyIri p)
  | .inverse p => ∃ label, node = .blank label ∧
      g.Describes label [(Rdf.owl.inverseOf, .iri (w.propertyIri p))]

mutual

/-- A graph holds an expression at a node. -/
def Encodes (w : World) (g : Rdf.Graph) (node : Rdf.Term) : ClassExpression → Prop
  | .thing => node = .iri Rdf.owl.thing
  | .nothing => node = .iri Rdf.owl.nothing
  | .named c => node = .iri (w.classIri c)
  | .and parts => ∃ label list items, node = .blank label ∧
      g.Describes label
        [(Rdf.rdf.type, .iri Rdf.owl.owlClass), (Rdf.owl.intersectionOf, list)] ∧
      g.IsList list items ∧ EncodesParts w g items parts
  | .or parts => ∃ label list items, node = .blank label ∧
      g.Describes label [(Rdf.rdf.type, .iri Rdf.owl.owlClass), (Rdf.owl.unionOf, list)] ∧
      g.IsList list items ∧ EncodesParts w g items parts
  | .not inner => ∃ label item, node = .blank label ∧
      g.Describes label [(Rdf.rdf.type, .iri Rdf.owl.owlClass), (Rdf.owl.complementOf, item)] ∧
      Encodes w g item inner
  | .oneOf members => ∃ label list, node = .blank label ∧
      g.Describes label [(Rdf.rdf.type, .iri Rdf.owl.owlClass), (Rdf.owl.oneOf, list)] ∧
      g.IsList list (members.map fun i => Rdf.Term.iri (w.individualIri i))
  | .restriction property quantifier filler => ∃ label role item, node = .blank label ∧
      g.Describes label [(Rdf.rdf.type, .iri Rdf.owl.restriction), (Rdf.owl.onProperty, role),
        (quantifier.iri, item)] ∧
      w.EncodesRole g role property ∧ EncodesFiller w g item filler
termination_by structural e => e

/-- A graph holds expressions at nodes, one after the other. -/
def EncodesParts (w : World) (g : Rdf.Graph) (nodes : List Rdf.Term) : List ClassExpression → Prop
  | [] => nodes = []
  | part :: rest => ∃ node others, nodes = node :: others ∧ Encodes w g node part ∧
      EncodesParts w g others rest
termination_by structural parts => parts

/-- A graph holds a filler at a node. -/
def EncodesFiller (w : World) (g : Rdf.Graph) (node : Rdf.Term) : Filler → Prop
  | .expression e => Encodes w g node e
  | .individual i => node = .iri (w.individualIri i)
  | .literal l => node = .literal l.toRdf
  | .datatype d => node = .iri d.iri
termination_by structural f => f

end

end World

/-! ### Nodes made for a place -/

namespace Rdf

/-- The subject of a triple is a blank node made for a place or for one inside it. -/
def Triple.IsBelow (t : Triple) (path : List Nat) : Prop :=
  ∃ place, t.subject = .blank (.made place) ∧ path <:+ place

/-- A graph says of the nodes made for a place what some triples say, and nothing else. -/
structure Graph.HoldsApart (g : Graph) (path : List Nat) (ts : List Triple) : Prop where
  holds : ∀ t ∈ ts, t ∈ g.triples
  apart : ∀ t ∈ g.triples, t.IsBelow path → t ∈ ts

variable {g : Graph} {t : Triple} {path path' place : List Nat} {ts ts' : List Triple}

namespace Triple

theorem isBelow_self {predicate : String} {object : Term} :
    IsBelow ⟨.blank (.made place), predicate, object⟩ place :=
  ⟨place, rfl, List.suffix_refl _⟩

theorem IsBelow.trans (h : t.IsBelow path') (hpath : path <:+ path') : t.IsBelow path := by
  obtain ⟨place, hsubject, hplace⟩ := h
  exact ⟨place, hsubject, hpath.trans hplace⟩

/-- What is below a step from a place is below the place. -/
theorem IsBelow.of_cons {n : Nat} (h : t.IsBelow (n :: path)) : t.IsBelow path :=
  h.trans (List.suffix_cons n path)

/-- No node is made for two places of one depth. -/
theorem IsBelow.eq_of_length (h : t.IsBelow path) (h' : t.IsBelow path')
    (hlength : path.length = path'.length) : path = path' := by
  obtain ⟨place, hsubject, hplace⟩ := h
  obtain ⟨place', hsubject', hplace'⟩ := h'
  rw [hsubject] at hsubject'
  obtain rfl : place = place' := by simpa using hsubject'
  exact (List.suffix_of_suffix_length_le hplace hplace' hlength.le).eq_of_length hlength

/-- No node is made for two places that follow a place in different steps. -/
theorem IsBelow.step_inj {n m : Nat} (h : t.IsBelow (n :: path)) (h' : t.IsBelow (m :: path)) :
    n = m :=
  (List.cons.inj (h.eq_of_length h' rfl)).1

/-- The node of a place is not made for one inside it. -/
theorem not_isBelow_cons {n : Nat} {predicate : String} {object : Term} :
    ¬IsBelow ⟨.blank (.made path), predicate, object⟩ (n :: path) := by
  rintro ⟨place, hsubject, hplace⟩
  obtain rfl : path = place := by simpa using hsubject
  have hlength := hplace.length_le
  rw [List.length_cons] at hlength
  omega

end Triple

namespace Graph

/-- What a graph says of the places that follow a place in one step, if the triples of the place are
in blocks, one for each step, and behind them those with the node of the place itself. -/
theorem HoldsApart.step {n : Nat} {block inner : List Triple} {rows : List (String × Term)}
    (h : g.HoldsApart path (inner ++ rows.map fun row => World.atPlace path row.1 row.2))
    (hblock : ∀ t ∈ block, t ∈ inner)
    (hothers : ∀ t ∈ inner, t ∈ block ∨ ∃ m, m ≠ n ∧ t.IsBelow (m :: path)) :
    g.HoldsApart (n :: path) block where
  holds t ht := h.holds t (List.mem_append_left _ (hblock t ht))
  apart t ht hbelow := by
    rcases List.mem_append.mp (h.apart t ht hbelow.of_cons) with hin | hown
    · rcases hothers t hin with hin | ⟨m, hm, hother⟩
      · exact hin
      · exact absurd (hother.step_inj hbelow) hm
    · obtain ⟨row, -, rfl⟩ := List.mem_map.mp hown
      exact absurd hbelow Triple.not_isBelow_cons

/-- What a graph says of the node of a place. -/
theorem HoldsApart.describes {rows : List (String × Term)} {inner : List Triple}
    (h : g.HoldsApart path
      (inner ++ rows.map fun row => World.atPlace path row.1 row.2))
    (hinner : ∀ t ∈ inner, ∃ n, t.IsBelow (n :: path)) : g.Describes (.made path) rows := by
  intro predicate object
  constructor
  · intro ht
    rcases List.mem_append.mp (h.apart _ ht Triple.isBelow_self) with hin | hown
    · obtain ⟨n, hbelow⟩ := hinner _ hin
      exact absurd hbelow Triple.not_isBelow_cons
    · obtain ⟨row, hrow, heq⟩ := List.mem_map.mp hown
      obtain ⟨-, rfl, rfl⟩ := Triple.mk.inj heq
      exact hrow
  · exact fun hrow => h.holds _ (List.mem_append_right _ (List.mem_map.mpr ⟨_, hrow, rfl⟩))

end Graph

end Rdf

namespace World

open Rdf.Triple (isBelow_self)

variable {w : World} {g : Rdf.Graph} {t : Triple} {path : List Nat}

/-! ### Where the triples of an expression are -/

theorem exists_isBelow_of_mem_listTriples {items : List Rdf.Term} : ∀ {n : Nat},
    t ∈ listTriples path n items → ∃ k, n ≤ k ∧ t.IsBelow (k :: 0 :: path) := by
  induction items with
  | nil => exact fun h => absurd h List.not_mem_nil
  | cons item rest ih =>
    intro n h
    rcases List.mem_cons.mp h with rfl | h
    · exact ⟨n, le_refl n, isBelow_self⟩
    rcases List.mem_cons.mp h with rfl | h
    · exact ⟨n, le_refl n, isBelow_self⟩
    · obtain ⟨k, hk, hbelow⟩ := ih h
      exact ⟨k, Nat.le_of_succ_le hk, hbelow⟩

theorem isBelow_of_mem_listTriples {n : Nat} {items : List Rdf.Term}
    (h : t ∈ listTriples path n items) : t.IsBelow (0 :: path) := by
  obtain ⟨k, -, hbelow⟩ := exists_isBelow_of_mem_listTriples h
  exact hbelow.of_cons

theorem isBelow_of_mem_directionTriples {p : PropertyExpression}
    (h : t ∈ w.directionTriples path p) : t.IsBelow (2 :: path) := by
  cases p with
  | named p => exact absurd h List.not_mem_nil
  | inverse p =>
    rw [List.mem_singleton.mp h]
    exact isBelow_self.of_cons

mutual

/-- An expression describes nodes made for its place. -/
theorem isBelow_of_mem_expressionTriples {t : Triple} : ∀ {e : ClassExpression} {path : List Nat},
    t ∈ w.expressionTriples path e → t.IsBelow path
  | .thing, _, h | .nothing, _, h | .named _, _, h => absurd h List.not_mem_nil
  | .and parts, path, h | .or parts, path, h => by
    rcases List.mem_append.mp h with h | hown
    · rcases List.mem_append.mp h with hparts | hlist
      · obtain ⟨k, -, hbelow⟩ := exists_isBelow_of_mem_partTriples hparts
        exact hbelow.of_cons.of_cons
      · exact (isBelow_of_mem_listTriples hlist).of_cons
    · simp only [atPlace, List.mem_cons, List.not_mem_nil, or_false] at hown
      rcases hown with rfl | rfl <;> exact isBelow_self
  | .not inner, path, h => by
    rcases List.mem_append.mp h with hinner | hown
    · exact (isBelow_of_mem_expressionTriples hinner).of_cons.of_cons
    · simp only [atPlace, List.mem_cons, List.not_mem_nil, or_false] at hown
      rcases hown with rfl | rfl <;> exact isBelow_self
  | .oneOf members, path, h => by
    rcases List.mem_append.mp h with hlist | hown
    · exact (isBelow_of_mem_listTriples hlist).of_cons
    · simp only [atPlace, List.mem_cons, List.not_mem_nil, or_false] at hown
      rcases hown with rfl | rfl <;> exact isBelow_self
  | .restriction property quantifier filler, path, h => by
    rcases List.mem_append.mp h with h | hown
    · rcases List.mem_append.mp h with hrole | hfiller
      · exact (isBelow_of_mem_directionTriples hrole).of_cons
      · exact (isBelow_of_mem_fillerTriples hfiller).of_cons.of_cons
    · simp only [atPlace, List.mem_cons, List.not_mem_nil, or_false] at hown
      rcases hown with rfl | rfl | rfl <;> exact isBelow_self
termination_by structural e => e

theorem exists_isBelow_of_mem_partTriples {t : Triple} :
    ∀ {parts : List ClassExpression} {path : List Nat} {n : Nat},
      t ∈ w.partTriples path n parts → ∃ k, n ≤ k ∧ t.IsBelow (k :: 1 :: path)
  | [], _, _, h => absurd h List.not_mem_nil
  | part :: rest, path, n, h => by
    rcases List.mem_append.mp h with hpart | hrest
    · exact ⟨n, le_refl n, isBelow_of_mem_expressionTriples hpart⟩
    · obtain ⟨k, hk, hbelow⟩ := exists_isBelow_of_mem_partTriples hrest
      exact ⟨k, Nat.le_of_succ_le hk, hbelow⟩
termination_by structural parts => parts

theorem isBelow_of_mem_fillerTriples {t : Triple} : ∀ {f : Filler} {path : List Nat},
    t ∈ w.fillerTriples path f → t.IsBelow path
  | .expression _, _, h => isBelow_of_mem_expressionTriples h
  | .individual _, _, h | .literal _, _, h | .datatype _, _, h => absurd h List.not_mem_nil
termination_by structural f => f

end

/-! ### Lists and roles -/

/-- The cell of a list before which there are `n` others. -/
def cellNode (path : List Nat) (n : Nat) (items : List Rdf.Term) : Rdf.Term :=
  if items.isEmpty then .iri Rdf.rdf.nil else .blank (.made (n :: 0 :: path))

/-- A graph holds a list whose cells it holds apart. -/
theorem isList_of_listTriples : ∀ {items : List Rdf.Term} {n : Nat},
    (∀ t ∈ listTriples path n items, t ∈ g.triples) →
    (∀ t ∈ g.triples, ∀ k, n ≤ k → t.IsBelow (k :: 0 :: path) → t ∈ listTriples path n items) →
    g.IsList (cellNode path n items) items
  | [], _, _, _ => rfl
  | item :: rest, n, hholds, hapart => by
    refine ⟨_, cellNode path (n + 1) rest, rfl, fun predicate object => ?_,
      isList_of_listTriples (n := n + 1) (fun t ht => ?_) fun t ht k hk hbelow => ?_⟩
    · -- the cells behind are made for other places
      constructor
      · intro ht
        rcases List.mem_cons.mp (hapart _ ht n (le_refl n) isBelow_self) with heq | h
        · obtain ⟨-, rfl, rfl⟩ := Rdf.Triple.mk.inj heq
          exact List.mem_cons_self
        rcases List.mem_cons.mp h with heq | h
        · obtain ⟨-, rfl, rfl⟩ := Rdf.Triple.mk.inj heq
          exact List.mem_cons_of_mem _ List.mem_cons_self
        · obtain ⟨k, hk, hbelow⟩ := exists_isBelow_of_mem_listTriples h
          have := hbelow.step_inj isBelow_self
          omega
      · intro hrow
        simp only [List.mem_cons, List.not_mem_nil, or_false, Prod.mk.injEq] at hrow
        rcases hrow with ⟨rfl, rfl⟩ | ⟨rfl, rfl⟩
        · exact hholds _ List.mem_cons_self
        · exact hholds _ (List.mem_cons_of_mem _ List.mem_cons_self)
    · exact hholds t (List.mem_cons_of_mem _ (List.mem_cons_of_mem _ ht))
    · rcases List.mem_cons.mp (hapart t ht k (Nat.le_of_succ_le hk) hbelow) with rfl | h
      · have := hbelow.step_inj isBelow_self
        omega
      rcases List.mem_cons.mp h with rfl | h
      · have := hbelow.step_inj isBelow_self
        omega
      · exact h

/-- A graph holds a list from its first cell on. -/
theorem isList_listNode {items : List Rdf.Term}
    (h : g.HoldsApart (0 :: path) (listTriples path 0 items)) :
    g.IsList (listNode path items) items :=
  isList_of_listTriples h.holds fun t ht _ _ hbelow => h.apart t ht hbelow.of_cons

theorem encodesRole_directionNode {p : PropertyExpression}
    (h : g.HoldsApart (2 :: path) (w.directionTriples path p)) :
    w.EncodesRole g (w.directionNode path p) p := by
  cases p with
  | named p => rfl
  | inverse p =>
    refine ⟨_, rfl, fun predicate object => ?_⟩
    rw [List.mem_singleton, Prod.mk.injEq]
    constructor
    · intro ht
      have heq := List.mem_singleton.mp (h.apart _ ht isBelow_self.of_cons)
      exact (Rdf.Triple.mk.inj heq).2
    · rintro ⟨rfl, rfl⟩
      exact h.holds _ (List.mem_singleton_self _)

/-! ### Expressions -/

theorem isBelow_of_mem_partTriples {n : Nat} {parts : List ClassExpression}
    (h : t ∈ w.partTriples path n parts) : t.IsBelow (1 :: path) := by
  obtain ⟨k, -, hbelow⟩ := exists_isBelow_of_mem_partTriples h
  exact hbelow.of_cons

/-- The parts and the list of an expression with parts, and what is said of its node. -/
theorem holdsApart_of_connective {parts : List ClassExpression} (rows : List (String × Rdf.Term))
    (h : g.HoldsApart path (w.partTriples path 0 parts
      ++ listTriples path 0 (w.partNodes path 0 parts)
      ++ rows.map fun row => atPlace path row.1 row.2)) :
    g.Describes (.made path) rows ∧
      g.IsList (listNode path (w.partNodes path 0 parts)) (w.partNodes path 0 parts) ∧
      g.HoldsApart (1 :: path) (w.partTriples path 0 parts) := by
  refine ⟨h.describes fun t ht => ?_, isList_listNode (h.step ?_ fun t ht => ?_),
    h.step ?_ fun t ht => ?_⟩
  · rcases List.mem_append.mp ht with hpart | hlist
    · exact ⟨1, isBelow_of_mem_partTriples hpart⟩
    · exact ⟨0, isBelow_of_mem_listTriples hlist⟩
  · exact fun t ht => List.mem_append_right _ ht
  · rcases List.mem_append.mp ht with hpart | hlist
    · exact .inr ⟨1, by decide, isBelow_of_mem_partTriples hpart⟩
    · exact .inl hlist
  · exact fun t ht => List.mem_append_left _ ht
  · rcases List.mem_append.mp ht with hpart | hlist
    · exact .inl hpart
    · exact .inr ⟨0, by decide, isBelow_of_mem_listTriples hlist⟩

/-- The role and the filler of a restriction, and what is said of its node. -/
theorem holdsApart_of_restriction {property : PropertyExpression} {filler : Filler}
    (rows : List (String × Rdf.Term))
    (h : g.HoldsApart path (w.directionTriples path property
      ++ w.fillerTriples (0 :: 1 :: path) filler
      ++ rows.map fun row => atPlace path row.1 row.2)) :
    g.Describes (.made path) rows ∧ w.EncodesRole g (w.directionNode path property) property ∧
      g.HoldsApart (0 :: 1 :: path) (w.fillerTriples (0 :: 1 :: path) filler) := by
  have hfiller : g.HoldsApart (1 :: path) (w.fillerTriples (0 :: 1 :: path) filler) := by
    refine h.step (fun t ht => List.mem_append_right _ ht) fun t ht => ?_
    rcases List.mem_append.mp ht with hrole | hfiller
    · exact .inr ⟨2, by decide, isBelow_of_mem_directionTriples hrole⟩
    · exact .inl hfiller
  refine ⟨h.describes fun t ht => ?_, encodesRole_directionNode (h.step ?_ fun t ht => ?_),
    hfiller.holds, fun t ht hbelow => hfiller.apart t ht hbelow.of_cons⟩
  · rcases List.mem_append.mp ht with hrole | hfiller
    · exact ⟨2, isBelow_of_mem_directionTriples hrole⟩
    · exact ⟨1, (isBelow_of_mem_fillerTriples hfiller).of_cons⟩
  · exact fun t ht => List.mem_append_left _ ht
  · rcases List.mem_append.mp ht with hrole | hfiller
    · exact .inl hrole
    · exact .inr ⟨1, by decide, (isBelow_of_mem_fillerTriples hfiller).of_cons⟩

mutual

/-- **A graph holds an expression whose triples it holds apart.** -/
theorem encodes_of_holdsApart : ∀ {e : ClassExpression} {path : List Nat},
    g.HoldsApart path (w.expressionTriples path e) → w.Encodes g (w.expressionNode path e) e
  | .thing, _, _ | .nothing, _, _ | .named _, _, _ => rfl
  | .and parts, path, h => by
    obtain ⟨hnode, hlist, hparts⟩ := holdsApart_of_connective
      [(Rdf.rdf.type, .iri Rdf.owl.owlClass), (Rdf.owl.intersectionOf, _)] h
    exact ⟨_, _, _, rfl, hnode, hlist, encodesParts_of_holdsApart hparts.holds
      fun t ht _ _ hbelow => hparts.apart t ht hbelow.of_cons⟩
  | .or parts, path, h => by
    obtain ⟨hnode, hlist, hparts⟩ := holdsApart_of_connective
      [(Rdf.rdf.type, .iri Rdf.owl.owlClass), (Rdf.owl.unionOf, _)] h
    exact ⟨_, _, _, rfl, hnode, hlist, encodesParts_of_holdsApart hparts.holds
      fun t ht _ _ hbelow => hparts.apart t ht hbelow.of_cons⟩
  | .not inner, path, h => by
    have h : g.HoldsApart path (w.expressionTriples (0 :: 1 :: path) inner
      ++ [(Rdf.rdf.type, .iri Rdf.owl.owlClass),
        (Rdf.owl.complementOf, w.expressionNode (0 :: 1 :: path) inner)].map
          fun row => atPlace path row.1 row.2) := h
    have hinner : g.HoldsApart (1 :: path) (w.expressionTriples (0 :: 1 :: path) inner) :=
      h.step (fun _ ht => ht) fun _ ht => .inl ht
    refine ⟨_, _, rfl, h.describes fun t ht => ⟨1, (isBelow_of_mem_expressionTriples ht).of_cons⟩,
      encodes_of_holdsApart ⟨hinner.holds, fun t ht hbelow => hinner.apart t ht hbelow.of_cons⟩⟩
  | .oneOf members, path, h => by
    have h : g.HoldsApart path
      (listTriples path 0 (members.map fun i => Rdf.Term.iri (w.individualIri i))
        ++ [(Rdf.rdf.type, .iri Rdf.owl.owlClass), (Rdf.owl.oneOf, _)].map
          fun row => atPlace path row.1 row.2) := h
    exact ⟨_, _, rfl, h.describes fun t ht => ⟨0, isBelow_of_mem_listTriples ht⟩,
      isList_listNode (h.step (fun _ ht => ht) fun _ ht => .inl ht)⟩
  | .restriction property quantifier filler, path, h => by
    obtain ⟨hnode, hrole, hfiller⟩ := holdsApart_of_restriction
      [(Rdf.rdf.type, .iri Rdf.owl.restriction), (Rdf.owl.onProperty, _), (quantifier.iri, _)] h
    exact ⟨_, _, _, rfl, hnode, hrole, encodesFiller_of_holdsApart hfiller⟩
termination_by structural e => e

/-- A graph holds parts whose triples it holds apart, part by part. -/
theorem encodesParts_of_holdsApart : ∀ {parts : List ClassExpression} {path : List Nat} {n : Nat},
    (∀ t ∈ w.partTriples path n parts, t ∈ g.triples) →
    (∀ t ∈ g.triples, ∀ k, n ≤ k → t.IsBelow (k :: 1 :: path) →
      t ∈ w.partTriples path n parts) →
    w.EncodesParts g (w.partNodes path n parts) parts
  | [], _, _, _, _ => rfl
  | part :: rest, path, n, hholds, hapart => by
    refine ⟨_, _, rfl, encodes_of_holdsApart ⟨fun t ht => ?_, fun t ht hbelow => ?_⟩,
      encodesParts_of_holdsApart (fun t ht => ?_) fun t ht k hk hbelow => ?_⟩
    · exact hholds t (List.mem_append_left _ ht)
    · rcases List.mem_append.mp (hapart t ht n (le_refl n) hbelow) with hpart | hrest
      · exact hpart
      · obtain ⟨k, hk, hother⟩ := exists_isBelow_of_mem_partTriples hrest
        have := hother.step_inj hbelow
        omega
    · exact hholds t (List.mem_append_right _ ht)
    · rcases List.mem_append.mp (hapart t ht k (Nat.le_of_succ_le hk) hbelow) with hpart | hrest
      · have := (isBelow_of_mem_expressionTriples hpart).step_inj hbelow
        omega
      · exact hrest
termination_by structural parts => parts

theorem encodesFiller_of_holdsApart : ∀ {f : Filler} {path : List Nat},
    g.HoldsApart path (w.fillerTriples path f) → w.EncodesFiller g (w.fillerNode path f) f
  | .expression _, _, h => encodes_of_holdsApart h
  | .individual _, _, _ | .literal _, _, _ | .datatype _, _, _ => rfl
termination_by structural f => f

end

end World

end Ontology
