import Ontology.Proofs.Mentions
import Ontology.Proofs.Repetition
import Ontology.Proofs.ValueAnswers

/-!
# Queries for the members of a class

A query for the members of a class sees the types that are written in the graph and climbs no
hierarchy.  Reasoning that came to rest has added all superclasses of the types it knows, and they
are kept and written, so such a query gives the same members as the hierarchy.

## Main definitions

* `Interpretation.IsTypedIn` — all types are classes of an ontology.

## Main results

* `World.isTypedIn_of_course` — reasoning finds only types of the ontology.
* `World.mem_toGraph_type` — the types of an individual in the graph.
* `World.mem_directTypes_of_course` — the types that are known after reasoning.
* `Workspace.isInstanceOf_iff_queried` — **after reasoning, queries for the members of a class agree
  with the hierarchy.**
-/

namespace Ontology

/-! ### Types of an ontology -/

/-- All types are classes of an ontology. -/
def Interpretation.IsTypedIn (w : World) (I : Interpretation) : Prop :=
  ∀ i c, (i, c) ∈ I.types → w.Has (.class c)

namespace World

variable {w : World} {options : InferenceOptions} {I : Interpretation} {i : IndividualId}
  {c : ClassId}

/-- The classes of an ontology, and all properties and values. -/
def ownClasses (w : World) : Scope where
  classes c := w.Has (.class c)
  properties _ := True
  values _ := True

theorem isTypedIn_iff : I.IsTypedIn w ↔ I.LiesIn w.ownClasses := by
  constructor
  · rintro h (⟨i, c⟩ | f) hd
    · exact ⟨trivial, h i c hd⟩
    · exact ⟨trivial, trivial, trivial⟩
  · exact fun h i c htype => (h (.type i c) htype).2

section Typed

variable (hrefs : ∀ r ∈ w.references, w.Has r)
include hrefs

/-- An ontology without dangling references adds types of its own only. -/
theorem keepsTo_ownClasses : w.KeepsTo w.ownClasses :=
  keepsTo_of_mentions (fun _ hc => (mem_mentions.mp hc).elim (hrefs _) id) (fun _ _ => trivial)
    (fun _ _ => trivial) fun _ _ _ _ => trivial

theorem isTypedIn_interpretation : w.interpretation.IsTypedIn w := by
  intro i c h
  refine hrefs _ (references_getIndividual w i ?_)
  simp only [Individual.references, List.mem_append, List.mem_flatMap]
  rcases mem_directTypes.mp (mem_types_interpretation.mp h) with h | h
  · exact .inl (.inl (.inl ⟨_, h, List.mem_singleton_self _⟩))
  · exact .inr (List.mem_map_of_mem h)

theorem isTypedIn_saturate (hI : I.IsTypedIn w) {n : Nat} {s : Saturated}
    (h : w.saturate n I = .ok s) : s.interpretation.IsTypedIn w := by
  rw [isTypedIn_iff] at hI ⊢
  exact hI.saturateFrom (keepsTo_ownClasses hrefs) (saturate_eq_ok h)

/-- **Reasoning finds only types of the ontology.** -/
theorem isTypedIn_of_course {saturations : List Saturated} {final : Reasoning}
    (h : w.Course options saturations final) : final.interpretation.IsTypedIn w := by
  obtain ⟨s, later, -, hs, hlater⟩ := h
  refine hlater.invariant (fun J o s hJ _ hsaturate => ?_)
    (isTypedIn_saturate hrefs (isTypedIn_interpretation hrefs) hs)
  refine isTypedIn_saturate hrefs (fun i c hmem => ?_) hsaturate
  rw [Interpretation.types_addFacts] at hmem
  exact hJ i c hmem

end Typed

/-! ### Types in the graph -/

/-- The types of an individual in the graph are those that are known. -/
theorem mem_toGraph_type (hw : w.KeepsApart terms) (hi : w.Has (.individual i))
    (hc : w.Has (.class c)) (htypes : ∀ d ∈ w.directTypes i, w.Has (.class d)) :
    ⟨.iri (w.individualIri i), Rdf.rdf.type, .iri (w.classIri c)⟩ ∈ (w.toGraph true).triples ↔
      c ∈ w.directTypes i := by
  have hterm : ∀ {term}, term ∈ terms → Rdf.Term.iri (w.classIri c) ≠ .iri term := by
    intro term hmem heq
    have heq : w.classIri c = term := by simpa [Rdf.Term.iri] using heq
    exact hw.iri_notMem hc (by rwa [Reference.iri, heq])
  have hsame : ∀ {d}, d ∈ w.directTypes i → Rdf.Term.iri (w.classIri c) = .iri (w.classIri d) →
      c ∈ w.directTypes i := by
    intro d hd heq
    have heq : w.classIri c = w.classIri d := by simpa [Rdf.Term.iri] using heq
    cases hw.iri_inj (r := .class c) hc (htypes d hd) heq
    exact hd
  constructor
  · intro h
    rcases mem_entityTriples_of_mem_toGraph hw hi h with
      h | ⟨-, hobject | hobject⟩ | hcomment | himports
    · rcases mem_individualTriples.mp h with heq | h | h | ⟨-, ⟨d, hd, heq⟩ | h⟩
      · exact absurd (Rdf.Triple.mk.inj heq).2.2 (hterm (by decide))
      · obtain ⟨-, -, n, e, he, hobject⟩ := mem_expressionAxioms_iri.mp h
        have he := (List.mem_filter.mp (List.mem_of_getElem? he)).1
        cases e with
        | thing => exact absurd hobject (hterm (by decide))
        | nothing => exact absurd hobject (hterm (by decide))
        | named d => exact hsame (mem_directTypes.mpr (.inl he)) hobject
        | and _ | or _ | not _ | oneOf _ | restriction _ _ _ => cases hobject
      · obtain ⟨-, n, p, v, -, htype, -⟩ := mem_factTriples_iri.mp h
        exact absurd htype.symm (hw.propertyIri_ne (by decide) (by decide))
      · exact hsame (mem_directTypes.mpr (.inr hd)) (Rdf.Triple.mk.inj heq).2.2
      · obtain ⟨-, n, p, v, -, htype, -⟩ := mem_factTriples_iri.mp h
        exact absurd htype.symm (hw.propertyIri_ne (by decide) (by decide))
    · exact absurd hobject (hterm (by decide))
    · exact absurd hobject (hterm (by decide))
    · exact absurd hcomment (by decide)
    · exact absurd himports (by decide)
  · intro h
    refine mem_toGraph_of_mem_entityTriples hi (mem_individualTriples.mpr ?_)
    rcases mem_directTypes.mp h with h | h
    · have hmem : ClassExpression.named c ∈ (w.getIndividual i).isA.filter (· ≠ .thing) :=
        List.mem_filter.mpr ⟨h, by simp⟩
      obtain ⟨n, hn⟩ := List.mem_iff_getElem?.mp hmem
      exact .inr (.inl (mem_expressionAxioms_iri.mpr ⟨rfl, rfl, n, _, hn, rfl⟩))
    · exact .inr (.inr (.inr ⟨rfl, .inl ⟨c, h, rfl⟩⟩))

/-! ### Types after reasoning -/

section Reasoned

variable {report : InferenceReport} {saturations : List Saturated} {final : Reasoning}

/-- The types that are known after reasoning are those that are known in its end. -/
theorem mem_directTypes_of_course (h : w.infer options = .ok report)
    (hcourse : w.Course options saturations final) (hi : w.Has (.individual i)) :
    c ∈ (w.applyInference report).directTypes i ↔ (i, c) ∈ final.interpretation.types := by
  obtain ⟨final', hfinal', htypes, -⟩ := infer_eq_ok h
  rw [reason_eq_ok_iff.mpr ⟨saturations, hcourse⟩, Except.ok.injEq] at hfinal'
  subst hfinal'
  rw [mem_directTypes_applyInference]
  constructor
  · rintro (hknown | ⟨hreported, -⟩)
    · exact hcourse.le.2 (mem_types_interpretation.mpr hknown)
    · exact ((htypes _).mp hreported).1
  · intro hfinal
    by_cases hstated : .named c ∈ (w.getIndividual i).isA
    · exact .inl (mem_directTypes.mpr (.inl hstated))
    · exact .inr ⟨(htypes _).mpr ⟨hfinal, hstated⟩, mem_individualIds_iff_has.mpr hi⟩

/-- What is known in the end has all superclasses, if the last saturation came to rest. -/
theorem mem_types_of_mem_parents (hcourse : w.Course options saturations final)
    (hsettled : ∀ s, saturations.getLast? = some s → s.isSettled = true) {d : ClassId}
    (h : (i, c) ∈ final.interpretation.types) (hd : d ∈ (w.getClass c).parents) :
    (i, d) ∈ final.interpretation.types := by
  obtain ⟨last, hlast, hfinal, J, hsaturate⟩ := hcourse.interpretation_getLast
  rw [hfinal] at h ⊢
  exact (isSaturated_of_saturate hsaturate (hsettled last hlast)).isClosed.superclass i c d h hd

end Reasoned

/-- The hierarchy gives no more types than are known, if these have all their superclasses. -/
theorem isInstanceOf_iff_mem_directTypes
    (h : ∀ c ∈ w.directTypes i, ∀ d ∈ (w.getClass c).parents, d ∈ w.directTypes i) :
    w.isInstanceOf i c = true ↔ c ∈ w.directTypes i := by
  rw [isInstanceOf, List.any_eq_true]
  constructor
  · rintro ⟨d, hd, hpath⟩
    rw [isSubclassOf_iff] at hpath
    -- every step to a parent stays among the types
    induction hpath with
    | refl => exact hd
    | tail _ hparent ih => exact h _ ih _ hparent
  · exact fun hc => ⟨c, hc, isSubclassOf_iff.mpr .refl⟩

/-! ### What reasoning leaves as it is -/

theorem StatesSame.getClass {w' : World} (h : w.StatesSame w') (c : ClassId) :
    w'.getClass c = w.getClass c := by
  rw [h.others]
  rfl

theorem StatesSame.has_iff {w' : World} (h : w.StatesSame w') {r : Reference} :
    w'.Has r ↔ w.Has r := by
  cases r with
  | individual i => rw [← mem_individualIds_iff_has, h.individualIds, mem_individualIds_iff_has]
  | «class» c | property p =>
    rw [h.others]
    rfl

theorem entityIris_modifyIndividual {f : Individual → Individual} (hf : ∀ d, (f d).iri = d.iri) :
    (w.modifyIndividual i f).entityIris = w.entityIris := by
  have hmap : (w.individuals.toList.modify i.index f).map Individual.iri
      = w.individuals.toList.map Individual.iri := by
    refine List.ext_getElem? fun n => ?_
    rw [List.getElem?_map, List.getElem?_map, List.getElem?_modify]
    cases w.individuals.toList[n]? with
    | none => rfl
    | some d => split <;> simp [hf]
  rw [entityIris, modifyIndividual, Array.toList_modify, hmap, entityIris]

/-- A report that is merged changes no IRIs. -/
theorem entityIris_applyInference (w : World) (r : InferenceReport) :
    (w.applyInference r).entityIris = w.entityIris := by
  have hfold : ∀ {α : Type} {grow : World → α → World} (as : List α),
      (∀ w a, (grow w a).entityIris = w.entityIris) →
      ∀ w, (as.foldl grow w).entityIris = w.entityIris := by
    intro α grow as hgrow
    induction as with
    | nil => exact fun _ => rfl
    | cons a as ih => exact fun w => (ih _).trans (hgrow w a)
  rw [applyInference, hfold _ fun w f => ?_, hfold _ fun w t => ?_]
  · exact entityIris_modifyIndividual fun d => by split <;> rfl
  · exact entityIris_modifyIndividual fun d => by split <;> rfl

theorem keepsApart_applyInference {vocabulary : List String} (hw : w.KeepsApart vocabulary)
    (r : InferenceReport) : (w.applyInference r).KeepsApart vocabulary where
  nodup := (entityIris_applyInference w r).symm ▸ hw.nodup
  fresh := (entityIris_applyInference w r).symm ▸ hw.fresh

end World

/-! ### Answers -/

/-- **After reasoning, queries for the members of a class agree with the hierarchy**, if the last
saturation came to rest: the types that are known of an individual have all their superclasses. -/
theorem Workspace.isInstanceOf_iff_queried {w w' : Workspace} {options : InferenceOptions}
    {report : InferenceReport} {saturations : List Saturated} {final : Reasoning}
    (hw : w.world.KeepsApart World.terms) (hrefs : ∀ r ∈ w.world.references, w.world.Has r)
    (h : w.inferWith options = .ok (w', report))
    (hcourse : w.world.Course options saturations final)
    (hsettled : ∀ s, saturations.getLast? = some s → s.isSettled = true) :
    (∀ x c, w'.world.Has (.individual x) → w'.world.Has (.class c) →
      ∀ (q : SelectQuery) (name : String),
        q.patterns = [⟨.variable name, .iri Rdf.rdf.type, .iri (w'.world.classIri c)⟩] →
        q.projected = [name] →
        ∃ rows, w'.world.select q = .ok ⟨[name], rows⟩ ∧
          ([some (.iri (w'.world.individualIri x))] ∈ rows ↔
            w'.world.isInstanceOf x c = true)) ∧
    ∀ x c, c ∈ w'.world.directTypes x → ∀ d ∈ (w'.world.getClass c).parents,
      d ∈ w'.world.directTypes x := by
  rw [inferWith] at h
  split at h
  swap
  · simp at h
  next r hr =>
  rw [Except.ok.injEq, Prod.mk.injEq] at h
  obtain ⟨rfl, rfl⟩ := h
  have hsame := World.statesSame_applyInference w.world r
  have hclosed : ∀ x c, c ∈ (w.world.applyInference r).directTypes x →
      ∀ d ∈ ((w.world.applyInference r).getClass c).parents,
        d ∈ (w.world.applyInference r).directTypes x := by
    intro x c hc d hd
    have hx := World.mem_individualIds_iff_has.mp (World.mem_individualIds_of_mem_directTypes hc)
    rw [World.mem_directTypes_of_course hr hcourse (hsame.has_iff.mp hx)] at hc ⊢
    rw [hsame.getClass] at hd
    exact World.mem_types_of_mem_parents hcourse hsettled hc hd
  refine ⟨fun x c hx hc q name hpatterns hprojected => ?_, hclosed⟩
  have htypes : ∀ d ∈ (w.world.applyInference r).directTypes x,
      (w.world.applyInference r).Has (.class d) := by
    intro d hd
    rw [World.mem_directTypes_of_course hr hcourse (hsame.has_iff.mp hx)] at hd
    exact hsame.has_iff.mpr (World.isTypedIn_of_course hrefs hcourse x d hd)
  obtain ⟨rows, hanswer, hrows⟩ := SelectQuery.answer_of_subjects hpatterns hprojected
    ((w.world.applyInference r).toGraph true)
  refine ⟨rows, hanswer, ?_⟩
  dsimp only
  rw [hrows, World.isInstanceOf_iff_mem_directTypes (hclosed x),
    ← World.mem_toGraph_type (World.keepsApart_applyInference hw r) hx hc htypes]
  constructor
  · rintro ⟨u, hu, heq⟩
    have heq : Rdf.Resource.iri ((w.world.applyInference r).individualIri x) = u := by
      simpa [Rdf.Term.iri] using heq
    rwa [heq]
  · exact fun hu => ⟨_, hu, rfl⟩

/-! ### Pets -/

namespace World

/-- Dogs are pets, and pets and animals are the same. -/
def pets : World where
  iri := "https://example.org/pets#"
  classes := #[
    { name := "Dog", iri := "https://example.org/pets#Dog", isA := [.named ⟨1⟩] },
    { name := "Pet", iri := "https://example.org/pets#Pet", isA := [.named ⟨2⟩] },
    { name := "Animal", iri := "https://example.org/pets#Animal", isA := [.named ⟨1⟩] }]
  individuals := #[{ name := "rex", iri := "https://example.org/pets#rex", isA := [.named ⟨0⟩] }]

/-- A dog is found to be a pet and an animal. -/
def petsReport : InferenceReport where
  inferredTypes := [(⟨0⟩, ⟨1⟩), (⟨0⟩, ⟨2⟩)]
  iterations := 3

/-- What is known about the dog in the end. -/
def knownPets : Interpretation where
  types := [(⟨0⟩, ⟨0⟩), (⟨0⟩, ⟨1⟩), (⟨0⟩, ⟨2⟩)]

/-- The animals. -/
def animals : SelectQuery where
  projection := .all
  patterns := [⟨.variable "x", .iri Rdf.rdf.type, .iri "https://example.org/pets#Animal"⟩]

/-- One saturation leads to the end. -/
theorem course_pets : pets.Course {} [⟨knownPets, 3, true⟩]
    { interpretation := knownPets, rounds := 3 } :=
  ⟨_, _, rfl, by decide +kernel, .unrestricted (by decide)⟩

end World

/-- After reasoning a query for animals finds the dog, as the hierarchy has it. -/
theorem Workspace.isInstanceOf_iff_queried_pets :
    World.pets.KeepsApart World.terms ∧ (∀ r ∈ World.pets.references, World.pets.Has r) ∧
    inferWith ⟨.pets, {}⟩ {}
      = .ok (⟨World.pets.applyInference World.petsReport, {}⟩, World.petsReport) ∧
    ∃ rows, (World.pets.applyInference World.petsReport).select World.animals = .ok ⟨["x"], rows⟩ ∧
      [some (Rdf.Term.iri "https://example.org/pets#rex")] ∈ rows := by
  have hapart : World.pets.KeepsApart World.terms := by decide
  have hrefs : ∀ r ∈ World.pets.references, World.pets.Has r := by decide
  have hinfer : World.pets.infer {} = .ok World.petsReport := by decide +kernel
  have hrun : inferWith ⟨.pets, {}⟩ {}
      = .ok (⟨World.pets.applyInference World.petsReport, {}⟩, World.petsReport) := by
    rw [inferWith, hinfer]
  obtain ⟨rows, hanswer, hrows⟩ := (isInstanceOf_iff_queried hapart hrefs hrun World.course_pets
    (by decide)).1 ⟨0⟩ ⟨2⟩ (by decide) (by decide) World.animals "x" rfl rfl
  exact ⟨hapart, hrefs, hrun, rows, hanswer, hrows.mpr (by decide +kernel)⟩

end Ontology
