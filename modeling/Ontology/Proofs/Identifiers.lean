import Ontology.Proofs.Extension
import Ontology.World.Graph

/-!
# The IRIs of entities

A graph names entities by their IRIs.  An ontology does not enforce that these are different from
each other and from the terms of the vocabulary that graphs are written with, so whatever is to be
found again in a graph rests on both.

## Main definitions

* `Rdf.rdf.terms` and its companions — the terms that the graphs of ontologies are written with.
* `World.KeepsApart` — the IRIs of entities differ from each other and from some terms.
* `Reference.iri` — the IRI of the entity that is referred to.

## Main results

* `World.KeepsApart.entityByIri?_iri` — **an entity is found by its IRI.**
* `World.KeepsApart.iri_inj` — entities with one IRI are the same.
-/

namespace Ontology

/-! ### Terms of the vocabulary -/

namespace Rdf

/-- The terms of RDF that graphs of ontologies are written with. -/
def rdf.terms : List String := [rdf.type, rdf.first, rdf.rest, rdf.nil]

/-- The terms of RDF Schema that graphs of ontologies are written with. -/
def rdfs.terms : List String :=
  [rdfs.comment, rdfs.label, rdfs.subClassOf, rdfs.subPropertyOf, rdfs.domain, rdfs.range]

/-- The datatypes that graphs of ontologies are written with. -/
def xsd.terms : List String := [xsd.string, xsd.boolean, xsd.integer, xsd.decimal]

/-- The terms of OWL that graphs of ontologies are written with. -/
def owl.terms : List String :=
  [owl.ontology, owl.imports, owl.thing, owl.nothing, owl.owlClass, owl.namedIndividual,
    owl.objectProperty, owl.datatypeProperty, owl.functionalProperty,
    owl.inverseFunctionalProperty, owl.symmetricProperty, owl.transitiveProperty, owl.inverseOf,
    owl.equivalentClass, owl.unionOf, owl.intersectionOf, owl.complementOf, owl.oneOf,
    owl.restriction, owl.onProperty, owl.someValuesFrom, owl.hasValue, owl.allDifferent,
    owl.distinctMembers]

/-- The terms of SWRL that graphs of ontologies are written with. -/
def swrl.terms : List String :=
  [swrl.imp, swrl.body, swrl.head, swrl.ruleVariable, swrl.classAtom, swrl.individualPropertyAtom,
    swrl.datavaluedPropertyAtom, swrl.sameIndividualAtom, swrl.differentIndividualsAtom,
    swrl.classPredicate, swrl.propertyPredicate, swrl.argument1, swrl.argument2]

end Rdf

/-! ### Entities by their IRI -/

instance (w : World) : DecidablePred w.Has
  | .class c => inferInstanceAs (Decidable (c.index < w.classes.size))
  | .property p => inferInstanceAs (Decidable (p.index < w.properties.size))
  | .individual i => inferInstanceAs (Decidable (i.index < w.individuals.size))

/-- The IRI of the entity that is referred to. -/
def Reference.iri (w : World) : Reference → String
  | .class c => w.classIri c
  | .property p => w.propertyIri p
  | .individual i => w.individualIri i

theorem Reference.entity_inj {r r' : Reference} (h : r.entity = r'.entity) : r = r' := by
  cases r <;> cases r' <;> simp_all [entity]

namespace World

/-- The IRIs of all entities, in the order in which entities are searched for an IRI. -/
def entityIris (w : World) : List String :=
  w.individuals.toList.map Individual.iri ++ (w.classes.toList.map Class.iri
    ++ w.properties.toList.map Property.iri)

/-- The IRIs of entities are different from each other and from the terms of a vocabulary. -/
structure KeepsApart (w : World) (vocabulary : List String) : Prop where
  nodup : w.entityIris.Nodup
  fresh : ∀ iri ∈ w.entityIris, iri ∉ vocabulary

instance (w : World) (vocabulary : List String) : Decidable (w.KeepsApart vocabulary) :=
  decidable_of_iff (w.entityIris.Nodup ∧ ∀ iri ∈ w.entityIris, iri ∉ vocabulary)
    ⟨fun ⟨hnodup, hfresh⟩ => ⟨hnodup, hfresh⟩, fun h => ⟨h.nodup, h.fresh⟩⟩

variable {w w' : World} {vocabulary : List String} {r r' : Reference}

theorem classIri_eq {c : ClassId} {d : Class} (h : w.class? c = some d) : w.classIri c = d.iri := by
  rw [classIri, getClass_eq h]

theorem propertyIri_eq {p : PropertyId} {d : Property} (h : w.property? p = some d) :
    w.propertyIri p = d.iri := by
  rw [propertyIri, getProperty_eq h]

theorem individualIri_eq {i : IndividualId} {d : Individual} (h : w.individual? i = some d) :
    w.individualIri i = d.iri := by
  rw [individualIri, getIndividual_eq h]

/-- The IRI of an entity that is there is one of all IRIs. -/
theorem iri_mem_entityIris (h : w.Has r) : r.iri w ∈ w.entityIris := by
  simp only [entityIris, List.mem_append, List.mem_map, Array.mem_toList_iff]
  cases r with
  | «class» c =>
    obtain ⟨d, hd⟩ := has_class_iff.mp h
    exact .inr (.inl ⟨d, Array.mem_of_getElem? hd, (classIri_eq hd).symm⟩)
  | property p =>
    obtain ⟨d, hd⟩ := has_property_iff.mp h
    exact .inr (.inr ⟨d, Array.mem_of_getElem? hd, (propertyIri_eq hd).symm⟩)
  | individual i =>
    obtain ⟨d, hd⟩ := has_individual_iff.mp h
    exact .inl ⟨d, Array.mem_of_getElem? hd, (individualIri_eq hd).symm⟩

namespace KeepsApart

/-- The IRI of an entity is no term of the vocabulary. -/
theorem iri_notMem (hw : w.KeepsApart vocabulary) (h : w.Has r) : r.iri w ∉ vocabulary :=
  hw.fresh _ (iri_mem_entityIris h)

/-- No property has a term of the vocabulary as its IRI, be it there or not. -/
theorem propertyIri_ne (hw : w.KeepsApart vocabulary) {term : String} (h : term ∈ vocabulary)
    (hterm : term ≠ "") {p : PropertyId} : w.propertyIri p ≠ term := by
  rintro rfl
  cases hd : w.property? p with
  | none => exact hterm (by rw [propertyIri, getProperty, hd, Option.getD_none])
  | some d => exact hw.iri_notMem (has_property_iff.mpr ⟨d, hd⟩) h

/-- **An entity is found by its IRI.** -/
theorem entityByIri?_iri (hw : w.KeepsApart vocabulary) (h : w.Has r) :
    w.entityByIri? (r.iri w) = some r.entity := by
  obtain ⟨hindividuals, hothers, hdisjoint⟩ := List.nodup_append.mp hw.nodup
  obtain ⟨hclasses, hproperties, hapart⟩ := List.nodup_append.mp hothers
  cases r with
  | individual i =>
    obtain ⟨d, hd⟩ := has_individual_iff.mp h
    rw [Reference.iri, individualIri_eq hd, entityByIri?,
      findIdx?_eq_some_of_nodup hindividuals hd]
    rfl
  | «class» c =>
    obtain ⟨d, hd⟩ := has_class_iff.mp h
    have hmem : d.iri ∈ w.classes.toList.map Class.iri :=
      List.mem_map_of_mem (Array.mem_toList_iff.mpr (Array.mem_of_getElem? hd))
    have hnone : d.iri ∉ w.individuals.toList.map Individual.iri := fun hiri =>
      hdisjoint _ hiri _ (List.mem_append_left _ hmem) rfl
    rw [Reference.iri, classIri_eq hd, entityByIri?, findIdx?_eq_none_of_notMem hnone,
      findIdx?_eq_some_of_nodup hclasses hd]
    rfl
  | property p =>
    obtain ⟨d, hd⟩ := has_property_iff.mp h
    have hmem : d.iri ∈ w.properties.toList.map Property.iri :=
      List.mem_map_of_mem (Array.mem_toList_iff.mpr (Array.mem_of_getElem? hd))
    have hnone : d.iri ∉ w.individuals.toList.map Individual.iri := fun hiri =>
      hdisjoint _ hiri _ (List.mem_append_right _ hmem) rfl
    have hnone' : d.iri ∉ w.classes.toList.map Class.iri := fun hiri => hapart _ hiri _ hmem rfl
    rw [Reference.iri, propertyIri_eq hd, entityByIri?, findIdx?_eq_none_of_notMem hnone,
      findIdx?_eq_none_of_notMem hnone', findIdx?_eq_some_of_nodup hproperties hd]
    rfl

/-- A term of the vocabulary is the IRI of no entity. -/
theorem entityByIri?_eq_none (hw : w.KeepsApart vocabulary) {term : String}
    (h : term ∈ vocabulary) : w.entityByIri? term = none := by
  have hnone : term ∉ w.entityIris := fun hiri => hw.fresh term hiri h
  simp only [entityIris, List.mem_append, not_or] at hnone
  rw [entityByIri?, findIdx?_eq_none_of_notMem hnone.1, findIdx?_eq_none_of_notMem hnone.2.1,
    findIdx?_eq_none_of_notMem hnone.2.2]
  rfl

/-- Entities with one IRI are the same. -/
theorem iri_inj (hw : w.KeepsApart vocabulary) (h : w.Has r) (h' : w.Has r')
    (heq : r.iri w = r'.iri w) : r = r' := by
  have hentity := hw.entityByIri?_iri h
  rw [heq, hw.entityByIri?_iri h', Option.some.injEq] at hentity
  exact (Reference.entity_inj hentity).symm

end KeepsApart

end World

end Ontology
