import Ontology.Proofs.Hierarchy
import Ontology.Proofs.Loading

/-!
# References in a loaded ontology

Whatever a document refers to has been declared before, in the document itself or in a file that it
imports.  So references never dangle, and parents and inverses have older places than what they
belong to.  The axioms that are added to a class later are restrictions, so they name no parents.

## Main definitions

* `World.IsGrounded` — no reference dangles, and parents and inverses are older.

## Main results

* `LoadSession.Step.references` — what a step adds refers to what was known before.
* `LoadSession.Step.isGrounded` — a step keeps an ontology grounded.
* `World.IsLoaded.isGrounded` — **a loaded ontology is grounded.**
* `World.hierarchies_of_isLoaded` — **its references do not dangle, and its hierarchies are partial
  orders.**
-/

namespace Ontology

/-! ### References after a change -/

namespace Assertions

theorem mem_references {a : Assertions} {r : Reference} : r ∈ a.references ↔
    ∃ p vs, a.rows.lookup p = some vs ∧ (r = .property p ∨ ∃ v ∈ vs, r ∈ v.references) := by
  simp only [references, List.mem_flatMap, List.mem_cons, Prod.exists, lookup_eq_some_iff a.sorted]

/-- Values refer to their property and to what they are. -/
theorem references_of_mem_get {a : Assertions} {p : PropertyId} {v : Value} (h : v ∈ a.get p) :
    .property p ∈ a.references ∧ v.references ⊆ a.references := by
  rw [get] at h
  cases hrow : a.rows.lookup p with
  | none => simp [hrow] at h
  | some vs =>
    rw [hrow] at h
    exact ⟨mem_references.mpr ⟨p, vs, hrow, .inl rfl⟩,
      fun r hr => mem_references.mpr ⟨p, vs, hrow, .inr ⟨v, h, hr⟩⟩⟩

end Assertions

namespace Write

theorem mem_valuesAfter {x : Write} {vs : List Value} {v : Value} (h : v ∈ x.valuesAfter vs) :
    v ∈ vs ∨ v = x.value := by
  cases x with
  | assign s p u => exact .inr (List.mem_singleton.mp h)
  | append s p u | enter s p i => exact (List.mem_append.mp h).imp_right List.mem_singleton.mp

/-- Changed values refer to what they referred to before and to what is written. -/
theorem references_change {x : Write} {a : Assertions} {r : Reference}
    (h : r ∈ (x.change a).references) : r ∈ a.references ∨ r ∈ x.references := by
  obtain ⟨p, vs, hrow, hr⟩ := Assertions.mem_references.mp h
  rw [lookup_change] at hrow
  split at hrow
  · next hp =>
    rcases hr with rfl | ⟨v, hv, hr⟩
    · rw [hp]
      exact .inr (List.mem_cons_of_mem _ List.mem_cons_self)
    · rw [← Option.some.inj hrow] at hv
      rcases mem_valuesAfter hv with hv | rfl
      · exact .inl ((Assertions.references_of_mem_get hv).2 hr)
      · exact .inr (List.mem_cons_of_mem _ (List.mem_cons_of_mem _ hr))
  · exact .inl (Assertions.mem_references.mpr ⟨p, vs, hrow, hr⟩)

end Write

namespace World

variable {w w' : World} {r : Reference}

theorem mem_references : r ∈ w.references ↔
    (r ∈ w.classes.toList.flatMap Class.references ∨
      r ∈ w.properties.toList.flatMap Property.references ∨
      r ∈ w.individuals.toList.flatMap Individual.references) ∨
    r ∈ w.rules.toList.flatMap Rule.references ∨
    r ∈ w.imports.toList.flatMap Import.references ∨
    r ∈ w.differentIndividuals.flatten.map .individual := by
  simp only [references, List.mem_append, or_assoc]

theorem references_of_property? {p : PropertyId} {d : Property} (h : w.property? p = some d) :
    d.references ⊆ w.references := fun _ hr =>
  mem_references.mpr (.inl (.inr (.inl (List.mem_flatMap.mpr
    ⟨d, Array.mem_toList_iff.mpr (Array.mem_of_getElem? h), hr⟩))))

theorem references_of_individual? {i : IndividualId} {d : Individual}
    (h : w.individual? i = some d) : d.references ⊆ w.references := fun _ hr =>
  mem_references.mpr (.inl (.inr (.inr (List.mem_flatMap.mpr
    ⟨d, Array.mem_toList_iff.mpr (Array.mem_of_getElem? h), hr⟩))))

theorem references_getClass (w : World) (c : ClassId) :
    (w.getClass c).references ⊆ w.references := by
  intro r hr
  rw [getClass] at hr
  cases hd : w.class? c with
  | none =>
    rw [hd] at hr
    exact absurd hr List.not_mem_nil
  | some d =>
    rw [hd] at hr
    exact mem_references.mpr (.inl (.inl (List.mem_flatMap.mpr
      ⟨d, Array.mem_toList_iff.mpr (Array.mem_of_getElem? hd), hr⟩)))

theorem references_getProperty (w : World) (p : PropertyId) :
    (w.getProperty p).references ⊆ w.references :=
  fun _ hr => references_of_property? (property?_of_mem_references hr) hr

theorem references_getIndividual (w : World) (i : IndividualId) :
    (w.getIndividual i).references ⊆ w.references := by
  intro r hr
  rw [getIndividual] at hr
  cases hd : w.individual? i with
  | none =>
    rw [hd] at hr
    exact absurd hr List.not_mem_nil
  | some d =>
    rw [hd] at hr
    exact references_of_individual? hd hr

/-- The values of an individual refer to their property and to what they are. -/
theorem references_of_assertions {a : Assertions} {s : IndividualId} {p : PropertyId} {v : Value}
    (ha : a = (w.getIndividual s).facts ∨ a = (w.getIndividual s).inferredFacts)
    (h : v ∈ a.get p) : .property p ∈ w.references ∧ v.references ⊆ w.references := by
  have hsubset : a.references ⊆ w.references := by
    refine List.Subset.trans (fun r hr => ?_) (references_getIndividual w s)
    rcases ha with rfl | rfl <;> simp [Individual.references, hr]
  obtain ⟨hproperty, hvalue⟩ := Assertions.references_of_mem_get h
  exact ⟨hsubset hproperty, List.Subset.trans hvalue hsubset⟩

/-- What is put behind the others refers to what the call does. -/
theorem references_put {a : Addition} (h : r ∈ (a.put w).references) :
    r ∈ w.references ∨ r ∈ a.references := by
  rw [mem_references] at h ⊢
  cases a with
  | «class» c =>
    simp only [Addition.put, mem_flatMap_push] at h
    change _ ∨ r ∈ c.references
    have hnew : r ∈ Class.references { c with iri := w.iriOr c.iri c.name } → r ∈ c.references := id
    tauto
  | importedClass name localName iri =>
    simp only [Addition.put, mem_flatMap_push] at h
    have hnone : r ∉ Class.references { name := localName, iri, imported := true } :=
      List.not_mem_nil
    tauto
  | property p =>
    simp only [Addition.put, mem_flatMap_push] at h
    change _ ∨ r ∈ p.references
    have hnew : r ∈ Property.references { p with iri := w.iriOr p.iri p.name } → r ∈ p.references :=
      id
    tauto
  | individual name type =>
    simp only [Addition.put, mem_flatMap_push] at h
    change _ ∨ r ∈ type.references
    have hnew : r ∈ Individual.references { name, iri := w.entityIri name, isA := [type] } →
        r ∈ type.references := by
      simp [Individual.references, Assertions.references]
    tauto
  | rule rule =>
    simp only [Addition.put, mem_flatMap_push] at h
    change _ ∨ r ∈ rule.references
    tauto
  | ontology i =>
    simp only [Addition.put, addImport, mem_flatMap_push] at h
    change _ ∨ r ∈ i.references
    tauto

/-- An axiom about a class refers to what its expression does. -/
theorem references_addClassAxiom {c : ClassId} {e : ClassExpression}
    (h : r ∈ (w.addClassAxiom c e).references) : r ∈ w.references ∨ r ∈ e.references := by
  rw [mem_references] at h
  rcases h with (h | h) | h
  · rw [addClassAxiom, modifyClass, Array.toList_modify] at h
    rcases mem_flatMap_modify h with h | ⟨d, hd, h⟩
    · exact .inl (mem_references.mpr (.inl (.inl h)))
    · have hr : r ∈ d.references ∨ r ∈ e.references := by
        simp only [Class.references, List.flatMap_append, List.flatMap_singleton,
          List.mem_append] at h ⊢
        tauto
      exact hr.imp_left fun hr => mem_references.mpr
        (.inl (.inl (List.mem_flatMap.mpr ⟨d, hd, hr⟩)))
  · exact .inl (mem_references.mpr (.inl (.inr h)))
  · exact .inl (mem_references.mpr (.inr h))

/-- A change of an individual refers to what the individual does before and after. -/
theorem references_modifyIndividual {i : IndividualId} {f : Individual → Individual}
    (h : r ∈ (w.modifyIndividual i f).references) :
    r ∈ w.references ∨ ∃ d ∈ w.individuals.toList, r ∈ (f d).references := by
  rw [mem_references] at h
  rcases h with (h | h | h) | h
  · exact .inl (mem_references.mpr (.inl (.inl h)))
  · exact .inl (mem_references.mpr (.inl (.inr (.inl h))))
  · rw [modifyIndividual, Array.toList_modify] at h
    exact (mem_flatMap_modify h).imp_left fun h => mem_references.mpr (.inl (.inr (.inr h)))
  · exact .inl (mem_references.mpr (.inr h))

theorem references_addIndividualAxiom {i : IndividualId} {e : ClassExpression}
    (h : r ∈ (w.addIndividualAxiom i e).references) : r ∈ w.references ∨ r ∈ e.references := by
  rcases references_modifyIndividual h with h | ⟨d, hd, h⟩
  · exact .inl h
  · have hr : r ∈ d.references ∨ r ∈ e.references := by
      simp only [Individual.references, List.flatMap_append, List.flatMap_singleton,
        List.mem_append] at h ⊢
      tauto
    exact hr.imp_left fun hr =>
      mem_references.mpr (.inl (.inr (.inr (List.mem_flatMap.mpr ⟨d, hd, hr⟩))))

theorem references_write {x : Write} (h : r ∈ (w.write x).references) :
    r ∈ w.references ∨ r ∈ x.references := by
  rw [write_eq] at h
  rcases references_modifyIndividual h with h | ⟨d, hd, h⟩
  · exact .inl h
  · have hr : r ∈ d.references ∨ r ∈ x.references := by
      simp only [Individual.references, List.mem_append] at h ⊢
      rcases h with ((h | h) | h) | h
      · exact .inl (.inl (.inl (.inl h)))
      · exact (Write.references_change h).imp_left fun h => .inl (.inl (.inr h))
      · exact .inl (.inl (.inr h))
      · exact .inl (.inr h)
    exact hr.imp_left fun hr =>
      mem_references.mpr (.inl (.inr (.inr (List.mem_flatMap.mpr ⟨d, hd, hr⟩))))

theorem references_addDifferent {group : List IndividualId}
    (h : r ∈ (w.addDifferent group).references) :
    r ∈ w.references ∨ ∃ i ∈ group, r = .individual i := by
  rw [mem_references] at h ⊢
  simp only [addDifferent, List.flatten_append, List.flatten_singleton, List.map_append,
    List.mem_append] at h
  have hnew : r ∈ group.map .individual → ∃ i ∈ group, r = .individual i := by
    simp [eq_comm]
  tauto

end World

/-! ### Grounded ontologies -/

namespace World

variable {w w' : World} {r : Reference}

/-- No reference dangles, and parents and inverses are older than what they belong to. -/
structure IsGrounded (w : World) : Prop where
  names : w.NamesMatch
  references : ∀ r ∈ w.references, w.Has r
  classes : ∀ c d, w.class? c = some d → ∀ e ∈ d.parents, e.index < c.index
  properties : ∀ p d, w.property? p = some d →
    ∀ q ∈ d.inverseOf.toList ++ d.parents, q.index < p.index

theorem isGrounded_new (iri : String) : IsGrounded { iri } where
  names := namesMatch_new iri
  references _ h := absurd h List.not_mem_nil
  classes c d h := by cases h
  properties p d h := by cases h

/-- The fixed vocabulary stands for no entity that could be referred to. -/
theorem entity_ne_of_vocabulary {name : String} {e : Entity}
    (h : Namespace.withBuiltins.get? name = some e) : e ≠ r.entity := by
  rintro rfl
  have hmem : (name, r.entity) ∈ Namespace.builtins := by
    obtain ⟨before, behind, heq, -⟩ := List.lookup_eq_some_iff.mp h
    have heq : Namespace.builtins = _ := heq
    simp [heq]
  have hnone : ∀ entry ∈ Namespace.builtins, entry.2.references = [] := by decide
  have hr : r ∈ r.entity.references := Entity.mem_references.mpr rfl
  rw [hnone _ hmem] at hr
  exact absurd hr List.not_mem_nil

namespace IsGrounded

/-- What is known is there. -/
theorem has_of_knows (hw : w.IsGrounded) (h : w.Knows r) : w.Has r := by
  rcases h with h | (⟨name, h⟩ | ⟨i, hi, hr⟩) | ⟨p, hr⟩
  · exact h
  · -- the name is not one of the vocabulary, which stands for nothing of the kind
    refine hw.names.entry name _ ?_ h
    by_contra hname
    rw [Bool.not_eq_false, Namespace.contains, Option.isSome_iff_exists] at hname
    obtain ⟨e, he⟩ := hname
    have heq : some e = some r.entity := by rw [← hw.names.vocabulary name e he, h]
    exact entity_ne_of_vocabulary he (Option.some.inj heq)
  · exact hw.references r (mem_references.mpr
      (.inr (.inr (.inl (List.mem_flatMap.mpr ⟨i, hi, hr⟩)))))
  · exact hw.references r (references_of_property? (property?_of_mem_references hr) hr)

end IsGrounded

/-- Named parents are references. -/
theorem mem_references_of_mem_parents {d : Class} {e : ClassId} (h : e ∈ d.parents) :
    .class e ∈ d.references := by
  obtain ⟨x, hx, hnamed⟩ := List.mem_filterMap.mp h
  rw [ClassExpression.named?_eq_some_iff] at hnamed
  subst hnamed
  exact List.mem_flatMap.mpr ⟨_, List.mem_append_left _ hx, List.mem_singleton_self _⟩

/-- Restrictions are no parents. -/
theorem parents_append_restrictions (d : Class) (axioms : List Restriction) :
    Class.parents { d with isA := d.isA ++ axioms.map Restriction.toExpression } = d.parents := by
  have hnone : (axioms.map Restriction.toExpression).filterMap ClassExpression.named? = [] := by
    rw [List.filterMap_map, List.filterMap_eq_nil_iff]
    exact fun _ _ => rfl
  rw [Class.parents, List.filterMap_append, hnone, List.append_nil, Class.parents]

/-- A class was there before a call or refers to what the call does. -/
theorem class?_put {a : Addition} {c : ClassId} {d : Class} (h : (a.put w).class? c = some d) :
    w.class? c = some d ∨ d.references ⊆ a.references := by
  cases a with
  | «class» new | importedClass name localName iri =>
    rw [class?, Addition.put] at h
    simp only [Array.getElem?_push] at h
    split at h
    · rw [← Option.some.inj h]
      exact .inr (List.Subset.refl _)
    · exact .inl h
  | _ => exact .inl h

/-- A property was there before a call or is the one that the call adds, but for an empty IRI. -/
theorem property?_put {a : Addition} {p : PropertyId} {d : Property}
    (h : (a.put w).property? p = some d) :
    w.property? p = some d ∨ ∃ q iri, a = .property q ∧ d = { q with iri } := by
  cases a with
  | property q =>
    rw [property?, Addition.put] at h
    simp only [Array.getElem?_push] at h
    split at h
    · rw [← Option.some.inj h]
      exact .inr ⟨q, _, rfl, rfl⟩
    · exact .inl h
  | _ => exact .inl h

end World

namespace LoadSession

open World

variable {names : List (String × String)} {s s' : LoadSession} {r : Reference}

/-- What a step adds refers to what was known before. -/
theorem Step.references (h : s.Step names s') (hr : r ∈ s'.world.references) :
    r ∈ s.world.references ∨ s.Knows r := by
  cases h with
  | add ha h =>
    rcases Addition.perform_eq_ok h with ⟨-, rfl⟩ | ⟨name, e, table, -, -, rfl⟩
    · exact (references_put hr).imp_right (ha.references r)
    · exact (references_put hr).imp_right (ha.references r)
  | comment text => exact .inl hr
  | different h =>
    refine (references_addDifferent hr).imp_right fun ⟨i, hi, hr⟩ => .inl ?_
    rw [hr]
    exact h i hi
  | classAxiom h => exact (references_addClassAxiom hr).imp_right fun hr => .inl (h r hr)
  | individualAxiom h => exact (references_addIndividualAxiom hr).imp_right fun hr => .inl (h r hr)
  | write hpermits hknown hentry =>
    exact (references_write hr).imp_right fun hr => .inl (hknown r hr)
  | setAttribute e key value => exact .inl hr
  | concepts h => exact .inl hr

/-- A new class refers to what was known. -/
theorem Step.references_class (h : s.Step names s') {c : ClassId} {d : Class}
    (hd : s'.world.class? c = some d) (hnew : ¬s.world.Has (.class c)) :
    ∀ r ∈ d.references, s.Knows r := by
  have hc : s'.world.Has (.class c) := has_class_iff.mpr ⟨d, hd⟩
  cases h with
  | add ha h =>
    rcases Addition.perform_eq_ok h with ⟨-, rfl⟩ | ⟨name, e, table, -, -, rfl⟩
    all_goals
      rcases class?_put hd with hd | hd
      · exact absurd (has_class_iff.mpr ⟨d, hd⟩) hnew
      · exact fun r hr => ha.references r (hd hr)
  | @classAxiom c' x _ =>
    -- an axiom leaves the number of classes as it was
    have hlt : c.index < (s.world.addClassAxiom c' x.toExpression).classes.size := hc
    rw [addClassAxiom, modifyClass, Array.size_modify] at hlt
    exact absurd hlt hnew
  | @write x _ _ _ =>
    rw [write_eq] at hc
    exact absurd hc hnew
  | _ => exact absurd hc hnew

/-- A new property is one that has been admitted, but for an empty IRI. -/
theorem Step.property_new (h : s.Step names s') {p : PropertyId} {d : Property}
    (hd : s'.world.property? p = some d) (hnew : ¬s.world.Has (.property p)) :
    ∃ q iri, s.Admits (.property q) ∧ d = { q with iri } := by
  have hp : s'.world.Has (.property p) := has_property_iff.mpr ⟨d, hd⟩
  cases h with
  | add ha h =>
    rcases Addition.perform_eq_ok h with ⟨-, rfl⟩ | ⟨name, e, table, -, -, rfl⟩
    all_goals
      rcases property?_put hd with hd | ⟨q, iri, rfl, hq⟩
      · exact absurd (has_property_iff.mpr ⟨d, hd⟩) hnew
      · exact ⟨q, iri, ha, hq⟩
  | @write x _ _ _ =>
    rw [write_eq] at hp
    exact absurd hp hnew
  | _ => exact absurd hp hnew

/-- Names and entities stay together. -/
theorem Step.namesMatch (h : s.Step names s') (hs : s.world.NamesMatch) :
    s'.world.NamesMatch := by
  cases h with
  | add ha h => exact hs.perform h
  | @classAxiom c x _ =>
    refine hs.congr rfl fun e => ?_
    cases e <;> simp [HasEntry, addClassAxiom, modifyClass]
  | @individualAxiom i x _ =>
    refine hs.congr rfl fun e => ?_
    cases e <;> simp [HasEntry, addIndividualAxiom, modifyIndividual]
  | @write x _ _ _ =>
    rw [write_eq]
    refine hs.congr rfl fun e => ?_
    cases e <;> simp [HasEntry, modifyIndividual]
  | _ => exact hs.congr rfl fun e => by cases e <;> rfl

/-- An ontology in which nothing dangles, with the property that all main roles imply. -/
structure IsGrounded (s : LoadSession) : Prop where
  world : s.world.IsGrounded
  mainRole : ∀ p, s.concepts.mainRole = some p → s.world.Has (.property p)

/-- Loading starts with nothing that could dangle. -/
theorem isGrounded_new (iri : String) (settings : LoadSettings) (folder : Folder) (base : String) :
    IsGrounded { world := { iri }, settings, folder, base } where
  world := World.isGrounded_new iri
  mainRole p h := by cases h

theorem IsGrounded.has_of_knows (hs : s.IsGrounded) (h : s.Knows r) : s.world.Has r := by
  rcases h with h | ⟨p, hp, rfl⟩
  · exact hs.world.has_of_knows h
  · exact hs.mainRole p hp

/-- A step keeps an ontology grounded. -/
theorem Step.isGrounded (h : s.Step names s') (hs : s.IsGrounded) : s'.IsGrounded := by
  have hkeep := h.isExtendedBy
  refine ⟨⟨h.namesMatch hs.world.names, fun r hr => hkeep.has ?_, fun c d hd e he => ?_,
    fun p d hd q hq => ?_⟩, fun p hp => ?_⟩
  · rcases h.references hr with hr | hr
    · exact hs.world.references r hr
    · exact hs.has_of_knows hr
  · by_cases hc : s.world.Has (.class c)
    · -- what has been added to the class are restrictions
      obtain ⟨d₀, hd₀⟩ := has_class_iff.mp hc
      obtain ⟨axioms, hd'⟩ := hkeep.classes c d₀ hd₀
      rw [hd] at hd'
      rw [Option.some.inj hd', parents_append_restrictions] at he
      exact hs.world.classes c d₀ hd₀ e he
    · -- the parents of a new class were there, so they have older places
      have hlt : e.index < s.world.classes.size := hs.has_of_knows
        (h.references_class hd hc _ (mem_references_of_mem_parents he))
      exact Nat.lt_of_lt_of_le hlt (Nat.le_of_not_lt hc)
  · by_cases hp : s.world.Has (.property p)
    · obtain ⟨d₀, hd₀⟩ := has_property_iff.mp hp
      rw [hkeep.properties p d₀ hd₀] at hd
      exact hs.world.properties p d (Option.some.inj hd ▸ hd₀) q hq
    · obtain ⟨new, iri, hadmits, rfl⟩ := h.property_new hd hp
      have hmem : .property q ∈ new.references :=
        List.mem_append_right _ (List.mem_map.mpr ⟨q, hq, rfl⟩)
      have hlt : q.index < s.world.properties.size :=
        hs.has_of_knows (hadmits.references _ hmem)
      exact Nat.lt_of_lt_of_le hlt (Nat.le_of_not_lt hp)
  · cases h with
    | concepts h => exact (h p hp).elim id (hs.mainRole p)
    | _ => exact hkeep.has (hs.mainRole p hp)

/-- Steps keep an ontology grounded. -/
theorem LeadsTo.isGrounded (h : s.LeadsTo names s') (hs : s.IsGrounded) : s'.IsGrounded := by
  induction h with
  | refl => exact hs
  | tail _ hstep ih => exact hstep.isGrounded ih

end LoadSession

/-! ### Loaded ontologies -/

namespace World

variable {w : World}

/-- **A loaded ontology is grounded.** -/
theorem IsLoaded.isGrounded (h : w.IsLoaded) : w.IsGrounded := by
  obtain ⟨settings, folder, base, document, h⟩ := h
  obtain ⟨iri, s, rfl, hs⟩ := leadsTo_of_load h
  exact (hs.isGrounded (LoadSession.isGrounded_new iri settings folder base)).world

/-- Every name stands for an entity of the ontology or belongs to the fixed vocabulary. -/
theorem IsGrounded.hasEntry_of_lookup? (hw : w.IsGrounded) {name : String} {e : Entity}
    (h : w.lookup? name = some e) :
    w.HasEntry e ∨ Namespace.withBuiltins.get? name = some e := by
  rw [or_iff_not_imp_left]
  intro he
  refine hw.names.builtin ?_ he
  by_cases hclass : ∃ c, e = .class c
  · -- an import may stand behind the name
    obtain ⟨c, rfl⟩ := hclass
    have hc : w.Has (.class c) :=
      hw.has_of_knows (.inr (.inl (offers_of_lookup? h (List.mem_singleton_self _))))
    exact absurd hc he
  · exact get?_of_lookup? h fun c hc => hclass ⟨c, hc⟩

theorem IsGrounded.parents_class (hw : w.IsGrounded) {c e : ClassId}
    (he : e ∈ (w.getClass c).parents) : e.index < c.index := by
  obtain ⟨x, hx, -⟩ := List.mem_filterMap.mp he
  exact hw.classes c _ (class?_of_mem_isA hx) e he

theorem IsGrounded.parents_property (hw : w.IsGrounded) {p q : PropertyId}
    (hq : q ∈ (w.getProperty p).inverseOf.toList ++ (w.getProperty p).parents) :
    q.index < p.index := by
  have hmem : .property q ∈ (w.getProperty p).references :=
    List.mem_append_right _ (List.mem_map.mpr ⟨q, hq, rfl⟩)
  exact hw.properties p _ (property?_of_mem_references hmem) q hq

/-- **The references of a loaded ontology do not dangle, and its hierarchies are partial orders.**
Whatever an expression, a value, a property, a rule, an import or a group refers to is there, and so
is what a name stands for.  Parents and inverses are older than what they belong to. -/
theorem hierarchies_of_isLoaded (h : w.IsLoaded) :
    (∀ r ∈ w.references, w.Has r) ∧
    (∀ name e, w.lookup? name = some e →
      w.HasEntry e ∨ Namespace.withBuiltins.get? name = some e) ∧
    (∀ c, ∀ e ∈ (w.getClass c).parents, e.index < c.index) ∧
    (∀ p, ∀ q ∈ (w.getProperty p).parents, q.index < p.index) ∧
    (∀ p q, (w.getProperty p).inverseOf = some q → q.index < p.index) ∧
    IsPartialOrder ClassId (w.isSubclassOf · · = true) ∧
    IsPartialOrder PropertyId (w.isSubpropertyOf · · = true) := by
  have hw := h.isGrounded
  have hclasses : ∀ c, ∀ e ∈ (w.getClass c).parents, e.index < c.index :=
    fun _ _ => hw.parents_class
  have hproperties : ∀ p, ∀ q ∈ (w.getProperty p).parents, q.index < p.index :=
    fun _ _ hq => hw.parents_property (List.mem_append_right _ hq)
  refine ⟨hw.references, fun _ _ => hw.hasEntry_of_lookup?, hclasses, hproperties,
    fun p q hq => hw.parents_property (by simp [hq]), ?_, ?_⟩
  · simp only [isSubclassOf_iff]
    exact isPartialOrder_of_descending hclasses
  · simp only [isSubpropertyOf_iff]
    exact isPartialOrder_of_descending hproperties

/-- The individual of the entry is there.  Flagships are ships and not the other way round, the main
role implies the one of all concepts and not the other way round, and the inverse is younger. -/
theorem hierarchies_of_isLoaded_expedition :
    load {} {} "" expeditionDocument = .ok expedition ∧
      (.individual ⟨3⟩ ∈ expedition.references ∧ expedition.Has (.individual ⟨3⟩)) ∧
      (expedition.lookup? "crew" = some (.rule ⟨0⟩) ∧ expedition.HasEntry (.rule ⟨0⟩)) ∧
      (expedition.isSubclassOf ⟨3⟩ ⟨2⟩ = true ∧ ¬expedition.isSubclassOf ⟨2⟩ ⟨3⟩ = true) ∧
      (expedition.isSubpropertyOf ⟨1⟩ ⟨0⟩ = true ∧ ¬expedition.isSubpropertyOf ⟨0⟩ ⟨1⟩ = true) ∧
      (expedition.getProperty ⟨3⟩).inverseOf = some ⟨2⟩ ∧ 2 < 3 := by
  obtain ⟨hreferences, hnames, -, -, hinverses, hclasses, hproperties⟩ :=
    hierarchies_of_isLoaded isLoaded_expedition
  obtain ⟨hentry, hrule, hclass, hrole, hinverse⟩ :
      .individual ⟨3⟩ ∈ expedition.references ∧
        expedition.lookup? "crew" = some (.rule ⟨0⟩) ∧
        expedition.isSubclassOf ⟨3⟩ ⟨2⟩ = true ∧
        expedition.isSubpropertyOf ⟨1⟩ ⟨0⟩ = true ∧
        (expedition.getProperty ⟨3⟩).inverseOf = some ⟨2⟩ := by
    decide +kernel
  refine ⟨load_expeditionDocument, ⟨hentry, hreferences _ hentry⟩, ⟨hrule, ?_⟩,
    ⟨hclass, fun h => ?_⟩,
    ⟨hrole, fun h => ?_⟩, hinverse, hinverses ⟨3⟩ ⟨2⟩ hinverse⟩
  · exact (hnames "crew" _ hrule).resolve_right (by decide)
  · exact absurd (hclasses.antisymm _ _ hclass h) (by decide)
  · exact absurd (hproperties.antisymm _ _ hrole h) (by decide)

end World

end Ontology
