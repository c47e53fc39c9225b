import Ontology.Proofs.Loading
import Ontology.Proofs.Naming
import Ontology.Reasoning.Search

/-!
# Inverses in a loaded ontology

A document can only declare a property to be the inverse of an older one, which may be an inverse
itself.  `World.baseRelation` follows one such declaration: in a chain of them a property stands for
the one before it, backwards, whatever that one stands for.  So two neighbours in a chain share a
relation only at its beginning, and a search decides the same facts more than once.

## Main definitions

* `World.OlderInverses` — properties are inverses of older ones only.

## Main results

* `World.IsLoaded.olderInverses` — every loaded ontology is of this kind.
* `World.relation_of_isLoaded` — **which properties share a relation with a declared inverse.**
* `World.relation_chain` — a chain of three properties that a search takes for two relations.
-/

namespace Ontology

/-- A name of the table was there before or is the new one. -/
theorem Namespace.get?_insert {ns ns' : Namespace} {name : String} {e : Entity}
    (h : ns.insert name e = .ok ns') {name' : String} {e' : Entity}
    (he' : ns'.get? name' = some e') : e' = e ∨ ns.get? name' = some e' := by
  rw [get?_of_insert h] at he'
  split at he'
  · exact Or.inl (Option.some.inj he').symm
  · exact Or.inr he'

namespace World

variable {w w' : World}

/-! ### Properties of a growing ontology -/

/-- An addition leaves the properties and their names alone or is that of a property, whose inverse
has a name already. -/
theorem Adds.properties (h : w.Adds w') :
    (w'.properties = w.properties ∧
      ∀ name p, w'.names.get? name = some (.property p) →
        w.names.get? name = some (.property p)) ∨
    ∃ p : Property, w'.properties = w.properties.push p ∧
      (∀ q, p.inverseOf = some q → ∃ name, w.names.get? name = some (.property q)) ∧
      ∀ name q, w'.names.get? name = some (.property q) →
        q = ⟨w.properties.size⟩ ∨ w.names.get? name = some (.property q) := by
  cases h with
  | addClass h | addImportedClass h | addIndividual h | addRule h =>
    obtain ⟨names, hnames, h⟩ := exists_of_bind_eq_ok h
    obtain ⟨rfl, -⟩ := Prod.mk.inj (Except.ok.inj h)
    refine Or.inl ⟨rfl, fun name p hp => ?_⟩
    rcases Namespace.get?_insert hnames hp with he | hp
    · simp at he
    · exact hp
  | addProperty hinverse h =>
    obtain ⟨names, hnames, h⟩ := exists_of_bind_eq_ok h
    obtain ⟨rfl, -⟩ := Prod.mk.inj (Except.ok.inj h)
    refine Or.inr ⟨_, rfl, fun q hq => ?_, fun name q hq => ?_⟩
    · exact (hinverse q hq).imp fun _ h => get?_of_lookup? h (by simp)
    · exact (Namespace.get?_insert hnames hq).imp_left Entity.property.inj
  | addImport i =>
    refine Or.inl ⟨rfl, fun name p hp => ?_⟩
    rw [World.addImport] at hp
    cases hqualifier : i.qualifier with
    | none => rwa [hqualifier] at hp
    | some qualifier => rwa [hqualifier] at hp
  | addComment | addDifferent | addClassAxiom | addIndividualAxiom | setFact | pushFact
  | setAttribute =>
    exact Or.inl ⟨rfl, fun _ _ hp => hp⟩

/-- The properties that have names are there, and each property that is declared to be the inverse
of another one is younger than that. -/
structure OlderInverses (w : World) : Prop where
  named : ∀ name p, w.names.get? name = some (.property p) → p.index < w.properties.size
  older : ∀ p q, (w.getProperty p).inverseOf = some q → q.index < p.index

namespace OlderInverses

/-- A new property cannot be the inverse of one that comes later. -/
theorem adds (hw : w.OlderInverses) (h : w.Adds w') : w'.OlderInverses := by
  rcases h.properties with ⟨hproperties, hnames⟩ | ⟨new, hproperties, hinverse, hnames⟩
  · refine ⟨fun name p hp => ?_, fun p q hq => ?_⟩
    · rw [hproperties]
      exact hw.named name p (hnames name p hp)
    · rw [getProperty, property?, hproperties] at hq
      exact hw.older p q hq
  · refine ⟨fun name p hp => ?_, fun p q hq => ?_⟩
    · rw [hproperties, Array.size_push]
      rcases hnames name p hp with rfl | hp
      · exact Nat.lt_succ_self _
      · exact Nat.lt_succ_of_lt (hw.named name p hp)
    · rw [getProperty, property?, hproperties, Array.getElem?_push] at hq
      split at hq
      · next hp =>
        -- the new property: its inverse had a name before
        obtain ⟨name, hname⟩ := hinverse q hq
        rw [hp]
        exact hw.named name q hname
      · exact hw.older p q hq

theorem growsTo (hw : w.OlderInverses) (h : w.GrowsTo w') : w'.OlderInverses := by
  induction h with
  | refl => exact hw
  | tail _ hadds ih => exact ih.adds hadds

/-- There is no property in an ontology without entities. -/
theorem empty (iri : String) : OlderInverses { iri } := by
  refine ⟨fun name p hp => ?_, fun p q hq => ?_⟩
  · have hmem : (name, Entity.property p) ∈ Namespace.builtins := by
      obtain ⟨before, behind, heq, -⟩ := List.lookup_eq_some_iff.mp hp
      have heq : Namespace.builtins = _ := heq
      simp [heq]
    simp [Namespace.builtins] at hmem
  · simp [getProperty, property?] at hq

/-- The inverse of an older property is read as that one backwards. -/
theorem baseRelation_eq_inverse (hw : w.OlderInverses) {p q : PropertyId}
    (hq : (w.getProperty p).inverseOf = some q) : w.baseRelation p = .inverse q := by
  rw [baseRelation, hq]
  have hlt : q.index < p.index := hw.older p q hq
  exact if_neg fun h => Nat.lt_asymm hlt h.2

/-- Every property stands for itself or for its inverse backwards. -/
theorem property_baseRelation (hw : w.OlderInverses) (p : PropertyId) :
    (w.baseRelation p).property = (w.getProperty p).inverseOf.getD p := by
  cases hq : (w.getProperty p).inverseOf with
  | none => rw [baseRelation, hq]; rfl
  | some q => rw [hw.baseRelation_eq_inverse hq]; rfl

/-- An inverse and the property it is declared for read each other backwards if and only if that one
is not an inverse itself. -/
theorem baseRelation_eq_reversed_iff (hw : w.OlderInverses) {p q : PropertyId}
    (hq : (w.getProperty p).inverseOf = some q) :
    w.baseRelation p = (w.baseRelation q).reversed ↔ (w.getProperty q).inverseOf = none := by
  rw [hw.baseRelation_eq_inverse hq]
  cases hr : (w.getProperty q).inverseOf with
  | none =>
    rw [baseRelation, hr]
    exact iff_of_true rfl rfl
  | some r =>
    -- a property is not its own inverse
    rw [hw.baseRelation_eq_inverse hr]
    simp [PropertyExpression.reversed]

/-- A relation belongs to a property and the inverses declared for it, or to these inverses only if
the property is an inverse itself. -/
theorem property_baseRelation_eq_iff (hw : w.OlderInverses) {q r : PropertyId} :
    (w.baseRelation r).property = q ↔
      (w.getProperty r).inverseOf = some q ∨ r = q ∧ (w.getProperty q).inverseOf = none := by
  rw [hw.property_baseRelation]
  cases hr : (w.getProperty r).inverseOf with
  | none =>
    rw [Option.getD_none]
    constructor
    · rintro rfl
      exact Or.inr ⟨rfl, hr⟩
    · rintro (h | ⟨rfl, -⟩)
      · simp at h
      · rfl
  | some s =>
    rw [Option.getD_some, Option.some.injEq]
    refine ⟨Or.inl, ?_⟩
    rintro (h | ⟨rfl, hnone⟩)
    · exact h
    · rw [hnone] at hr
      simp at hr

end OlderInverses

/-- Every loaded ontology has inverses of older properties only. -/
theorem IsLoaded.olderInverses (h : w.IsLoaded) : w.OlderInverses := by
  obtain ⟨iri, hgrows⟩ := h.growsTo
  exact (OlderInverses.empty iri).growsTo hgrows

/-! ### Relations -/

/-- **Which properties share a relation with a declared inverse.**  In a loaded ontology a property
`p` that is declared to be the inverse of `q` is `q` backwards.  It shares a relation with the other
inverses of `q`, and with `q` if and only if that is not an inverse itself. -/
theorem relation_of_isLoaded (h : w.IsLoaded) {p q : PropertyId}
    (hq : (w.getProperty p).inverseOf = some q) :
    w.relation (.named p) = .inverse q ∧
      w.relation (.inverse p) = .named q ∧
      (w.relation (.named p) = w.relation (.inverse q) ↔ (w.getProperty q).inverseOf = none) ∧
      ∀ r, (w.relation (.named r)).property = (w.relation (.named p)).property ↔
        (w.getProperty r).inverseOf = some q ∨ r = q ∧ (w.getProperty q).inverseOf = none := by
  have hw : w.OlderInverses := h.olderInverses
  have hp : w.baseRelation p = .inverse q := hw.baseRelation_eq_inverse hq
  refine ⟨hp, ?_, hw.baseRelation_eq_reversed_iff hq, fun r => ?_⟩
  · rw [relation, hp]
    rfl
  · rw [relation, relation, hp]
    exact hw.property_baseRelation_eq_iff

/-! ### A chain of inverses -/

/-- A visitor is right to a house and, by an inverse of an inverse, right of one. -/
def chainDocument : Tree :=
  .sequence [
    .object [("owl_class", .object [("House", .null)])],
    .object [("owl_class", .object [("Visitor", .null)])],
    .object [("owl_object_property", .object [("right_to", .object [
      ("Domain", .string "Visitor"),
      ("Range", .string "House"),
      ("Characteristics", .sequence [.string "Functional"])])])],
    .object [("owl_inverse_property", .object [("left_to", .object [
      ("Inverse", .string "right_to")])])],
    .object [("owl_inverse_property", .object [("right_of", .object [
      ("Inverse", .string "left_to")])])],
    .object [("owl_individual", .object [("x", .object [
      ("types", .sequence [.string "Visitor"])])])],
    .object [("owl_multiple_individuals", .object [
      ("names", .sequence [.string "h1", .string "h2"]),
      ("types", .sequence [.string "House"])])],
    .object [("restriction", .object [("Subject", .string "x"),
      ("Body", .object [("right_to", .object [("some", .string "House")])])])],
    .object [("restriction", .object [("Subject", .string "x"),
      ("Body", .object [("right_of", .object [("some", .string "House")])])])]]

/-- The ontology of the document. -/
def chain : World :=
  (load {} {} "" chainDocument).toOption.getD default

theorem load_chainDocument : load {} {} "" chainDocument = .ok chain :=
  eq_ok_of_isSome (by decide +kernel)

theorem isLoaded_chain : chain.IsLoaded :=
  ⟨_, _, _, _, load_chainDocument⟩

/-- The beginning of the chain is one relation, its end is the inverse of the middle only. -/
theorem relation_of_isLoaded_chain :
    chain.relation (.named ⟨1⟩) = chain.relation (.inverse ⟨0⟩) ∧
      chain.relation (.named ⟨2⟩) = .inverse ⟨1⟩ ∧
      (chain.relation (.named ⟨1⟩)).property ≠ (chain.relation (.named ⟨2⟩)).property := by
  have hmiddle : (chain.getProperty ⟨1⟩).inverseOf = some ⟨0⟩ := by decide +kernel
  have hend : (chain.getProperty ⟨2⟩).inverseOf = some ⟨1⟩ := by decide +kernel
  obtain ⟨-, -, hshared, -⟩ := relation_of_isLoaded isLoaded_chain hmiddle
  obtain ⟨hrelation, -, -, hsharing⟩ := relation_of_isLoaded isLoaded_chain hend
  refine ⟨hshared.mpr (by decide +kernel), hrelation, fun h => ?_⟩
  rcases (hsharing ⟨1⟩).mp h with hinverse | ⟨-, hnone⟩
  · simp [hmiddle] at hinverse
  · simp [hmiddle] at hnone

/-- **The middle of a chain is not the relation of its end.**  A search takes the end for a relation
of its own: where there are two houses to choose from, it counts four models. -/
theorem relation_chain :
    load {} {} "" chainDocument = .ok chain ∧
      (chain.getProperty ⟨1⟩).inverseOf = some ⟨0⟩ ∧
      (chain.getProperty ⟨2⟩).inverseOf = some ⟨1⟩ ∧
      chain.relation (.named ⟨2⟩) ≠ chain.relation (.inverse ⟨1⟩) ∧
      (chain.searchProblem chain.interpretation).searched = [.named ⟨0⟩, .inverse ⟨1⟩] ∧
      (chain.searchProblem chain.interpretation).solve 64 = .ok ⟨4, false, []⟩ :=
  ⟨load_chainDocument, by decide +kernel, by decide +kernel, by decide +kernel, by decide +kernel,
    by decide +kernel⟩

end World

end Ontology
