import Ontology.Proofs.ValueOrder

/-!
# What loading takes note of

Loading remembers the marker class of relation concepts, the property that all main roles imply, and
the concept of each entry.  Only declarations of classes note anything but entries, and only they
change the hierarchies and set attributes: what other statements add has no parents.

## Main definitions

* `LoadSession.KeepsHierarchies` — the concepts of some entries are noted, and the hierarchies stay.
* `LoadSession.NotesEntries` — no attribute is set besides.

## Main results

* `LoadSession.notesEntries_applyEntry` — an entry is noted under its concept.
* `LoadSession.notesEntries_perform` — **a statement that neither declares classes nor has entries
  notes nothing and leaves the hierarchies alone.**
-/

namespace Ontology

/-- A new name comes without attributes. -/
theorem Namespace.attributes_of_insert {ns ns' : Namespace} {name : String} {e : Entity}
    (h : ns.insert name e = .ok ns') : ns'.attributes = ns.attributes := by
  rw [← (insert_eq_ok_iff.mp h).2]

namespace World

variable {w w' : World}

/-- What a call adds comes without attributes. -/
theorem attributes_put (a : Addition) (w : World) :
    (a.put w).names.attributes = w.names.attributes := by
  cases a with
  | ontology i =>
    rw [Addition.put, addImport]
    cases i.qualifier with
    | none => rfl
    | some _ => rfl
  | _ => rfl

/-- What a call adds has no parents, unless it is a class or a property that comes with some. -/
theorem parents_put {a : Addition} (names : Namespace)
    (hclass : ∀ d, a = .class d → d.parents = [])
    (hproperty : ∀ d, a = .property d → d.parents = []) :
    (∀ c, ((a.put { w with names }).getClass c).parents = (w.getClass c).parents) ∧
      ∀ p, ((a.put { w with names }).getProperty p).parents = (w.getProperty p).parents := by
  have hpush {α : Type} {xs : Array α} {x : α} {n : Nat} : (xs.push x)[n]? =
      if n = xs.size then some x else xs[n]? := Array.getElem?_push
  constructor
  · intro c
    cases a with
    | «class» d =>
      simp only [Addition.put, getClass, class?, hpush]
      split
      · next hc => simpa [hc, Class.parents] using hclass d rfl
      · rfl
    | importedClass name localName iri =>
      simp only [Addition.put, getClass, class?, hpush]
      split
      · next hc => simp [hc, Class.parents, ClassExpression.named?]
      · rfl
    | _ => rfl
  · intro p
    cases a with
    | property d =>
      simp only [Addition.put, getProperty, property?, hpush]
      split
      · next hp => simpa [hp] using hproperty d rfl
      · rfl
    | _ => rfl

end World

namespace LoadSession

open World

variable {s s' s₁ : LoadSession} {t : Tree} {entries further : List ClassId}

/-! ### What is added -/

/-- A class is put behind the others under a new name. -/
theorem addClass_eq_ok {d : Class} {c : ClassId} (h : s.addClass d = .ok (s', c)) :
    c = ⟨s.world.classes.size⟩ ∧ s.world.names.insert d.name (.class c) = .ok s'.world.names ∧
      (∃ iri, s'.world.classes = s.world.classes.push { d with iri }) ∧
      s'.world.properties = s.world.properties ∧ s'.world.individuals = s.world.individuals ∧
      s'.concepts = s.concepts := by
  obtain ⟨⟨world, id⟩, hadd, h⟩ := exists_of_bind_eq_ok h
  obtain ⟨rfl, rfl⟩ := Prod.mk.inj (Except.ok.inj h)
  obtain ⟨names, hnames, hadd⟩ := exists_of_bind_eq_ok (ok_of_ofNames hadd)
  obtain ⟨rfl, rfl⟩ := Prod.mk.inj (Except.ok.inj hadd)
  exact ⟨rfl, hnames, ⟨_, rfl⟩, rfl, rfl, rfl⟩

/-- A property is put behind the others under a new name. -/
theorem addProperty_eq_ok {d : Property} {p : PropertyId} (h : s.addProperty d = .ok (s', p)) :
    p = ⟨s.world.properties.size⟩ ∧ s.world.names.insert d.name (.property p) = .ok s'.world.names ∧
      (∃ iri, s'.world.properties = s.world.properties.push { d with iri }) ∧
      s'.world.classes = s.world.classes ∧ s'.world.individuals = s.world.individuals ∧
      s'.concepts = s.concepts := by
  obtain ⟨⟨world, id⟩, hadd, h⟩ := exists_of_bind_eq_ok h
  obtain ⟨rfl, rfl⟩ := Prod.mk.inj (Except.ok.inj h)
  obtain ⟨names, hnames, hadd⟩ := exists_of_bind_eq_ok (ok_of_ofNames hadd)
  obtain ⟨rfl, rfl⟩ := Prod.mk.inj (Except.ok.inj hadd)
  exact ⟨rfl, hnames, ⟨_, rfl⟩, rfl, rfl, rfl⟩

/-- An individual is put behind the others under a new name. -/
theorem addIndividual_eq_ok {name : String} {type : ClassExpression} {i : IndividualId}
    (h : s.addIndividual name type = .ok (s', i)) :
    i = ⟨s.world.individuals.size⟩ ∧
      s.world.names.insert name (.individual i) = .ok s'.world.names ∧
      (∃ iri, s'.world.individuals = s.world.individuals.push { name, iri, isA := [type] }) ∧
      s'.world.classes = s.world.classes ∧ s'.world.properties = s.world.properties := by
  obtain ⟨⟨world, id⟩, hadd, h⟩ := exists_of_bind_eq_ok h
  obtain ⟨rfl, rfl⟩ := Prod.mk.inj (Except.ok.inj h)
  obtain ⟨names, hnames, hadd⟩ := exists_of_bind_eq_ok (ok_of_ofNames hadd)
  obtain ⟨rfl, rfl⟩ := Prod.mk.inj (Except.ok.inj hadd)
  exact ⟨rfl, hnames, ⟨_, rfl⟩, rfl, rfl⟩

/-- A proxy is no property. -/
theorem properties_addProxy {c : ClassId} {body : List (String × Node)}
    (h : s.addProxy c body = .ok s') : s'.world.properties = s.world.properties := by
  obtain ⟨flag, -, ⟨-, rfl⟩ | ⟨value, i, -, hadd⟩⟩ := addProxy_eq_ok h
  · rfl
  · exact (addIndividual_eq_ok hadd).2.2.2.2

/-! ### What is noted -/

/-- The concepts of some entries are noted, the latest first, and nothing else.  Classes and
properties keep their parents, and what is new has none. -/
structure KeepsHierarchies (entries : List ClassId) (s s' : LoadSession) : Prop where
  classParents : ∀ c, (s'.world.getClass c).parents = (s.world.getClass c).parents
  propertyParents : ∀ p, (s'.world.getProperty p).parents = (s.world.getProperty p).parents
  concepts : s'.concepts = { s.concepts with created := entries ++ s.concepts.created }

/-- The concepts of some entries are noted, and neither the hierarchies nor attributes change. -/
structure NotesEntries (entries : List ClassId) (s s' : LoadSession) : Prop
    extends KeepsHierarchies entries s s' where
  attributes : s'.world.names.attributes = s.world.names.attributes

namespace NotesEntries

protected theorem refl (s : LoadSession) : NotesEntries [] s s :=
  ⟨⟨fun _ => rfl, fun _ => rfl, rfl⟩, rfl⟩

protected theorem trans (h : NotesEntries entries s s₁) (h' : NotesEntries further s₁ s') :
    NotesEntries (further ++ entries) s s' where
  classParents c := (h'.classParents c).trans (h.classParents c)
  propertyParents p := (h'.propertyParents p).trans (h.propertyParents p)
  concepts := by rw [h'.concepts, h.concepts, List.append_assoc]
  attributes := h'.attributes.trans h.attributes

/-- Individuals have nothing to do with the hierarchies. -/
theorem of_sameVocabulary {world : World} (h : s.world.SameVocabulary world) :
    NotesEntries [] s { s with world } := by
  obtain ⟨individuals, rfl⟩ := h
  exact ⟨⟨fun _ => rfl, fun _ => rfl, rfl⟩, rfl⟩

end NotesEntries

/-! ### Parts of statements -/

/-- Parts that note nothing do so together. -/
theorem notesEntries_foldlM {α : Type} {f : LoadSession → α → Loading LoadSession} {as : List α}
    (hf : ∀ a s₁ s₂, f s₁ a = .ok s₂ → NotesEntries [] s₁ s₂) (h : as.foldlM f s = .ok s') :
    NotesEntries [] s s' :=
  rel_of_foldlM .refl (fun _ _ _ h h' => h.trans h') (fun a _ s₁ s₂ _ h => hf a s₁ s₂ h) h

theorem notesEntries_add {a : Addition} {world : World} {o : Option Entity}
    (h : a.perform s.world = .ok (world, o)) (hclass : ∀ d, a = .class d → d.parents = [])
    (hproperty : ∀ d, a = .property d → d.parents = []) :
    NotesEntries [] s { s with world } := by
  rcases Addition.perform_eq_ok h with ⟨-, rfl⟩ | ⟨_, _, names, -, hnames, rfl⟩
  · obtain ⟨hclasses, hproperties⟩ := parents_put (w := s.world) s.world.names hclass hproperty
    exact ⟨⟨hclasses, hproperties, rfl⟩, attributes_put a s.world⟩
  · obtain ⟨hclasses, hproperties⟩ := parents_put (w := s.world) names hclass hproperty
    exact ⟨⟨hclasses, hproperties, rfl⟩,
      (attributes_put a _).trans (Namespace.attributes_of_insert hnames)⟩

theorem notesEntries_addProperty {d : Property} {p : PropertyId} (hd : d.parents = [])
    (h : s.addProperty d = .ok (s', p)) : NotesEntries [] s s' := by
  obtain ⟨⟨world, id⟩, hadd, h⟩ := exists_of_bind_eq_ok h
  obtain ⟨rfl, rfl⟩ := Prod.mk.inj (Except.ok.inj h)
  refine notesEntries_add (a := .property d) (map_of_ofNames hadd) (by simp) fun d' hd' => ?_
  cases hd'
  exact hd

theorem notesEntries_addIndividual {name : String} {type : ClassExpression} {i : IndividualId}
    (h : s.addIndividual name type = .ok (s', i)) : NotesEntries [] s s' := by
  obtain ⟨hperform, hs'⟩ := perform_of_addIndividual h
  rw [hs']
  exact notesEntries_add hperform (by simp) (by simp)

theorem notesEntries_applyFact {p : PropertyId} {i : IndividualId} {value : PairValue}
    (h : s.applyFact p i value = .ok s') : NotesEntries [] s s' := by
  obtain ⟨vs, -, rfl⟩ := applyFact_eq_ok h
  exact .of_sameVocabulary (sameVocabulary_stateFacts _ _)

theorem notesEntries_applyFacts {p : PropertyId} {body : List (String × Node)}
    (h : s.applyFacts p body = .ok s') : NotesEntries [] s s' := by
  rw [applyFacts] at h
  split at h
  · rw [Except.ok.inj h]
    exact .refl _
  · refine notesEntries_foldlM (fun n s₁ s₂ h => ?_) h
    cases n with
    | pairs entries =>
      refine notesEntries_foldlM (fun entry s₁ s₂ h => ?_) h
      obtain ⟨i, -, h⟩ := exists_of_bind_eq_ok h
      exact notesEntries_applyFact h
    | _ => cases h

/-- A proxy leaves the hierarchies alone, but its flag is kept as an attribute. -/
theorem keepsHierarchies_addProxy {c : ClassId} {body : List (String × Node)}
    (h : s.addProxy c body = .ok s') : KeepsHierarchies [] s s' := by
  obtain ⟨flag, -, ⟨-, rfl⟩ | ⟨value, i, -, hadd⟩⟩ := addProxy_eq_ok h
  · exact (NotesEntries.refl _).toKeepsHierarchies
  · obtain ⟨hclasses, hproperties, hconcepts⟩ :=
      (notesEntries_addIndividual hadd).toKeepsHierarchies
    exact ⟨hclasses, hproperties, hconcepts⟩

/-! ### Statements without classes and entries -/

theorem notesEntries_individualOf {name : String} {body : Tree}
    (h : s.individualOf name body = .ok s') : NotesEntries [] s s' := by
  obtain ⟨type, i, hadd, -⟩ := individualOf_eq_ok h
  exact notesEntries_addIndividual hadd

theorem notesEntries_declareIndividual (h : s.declareIndividual t = .ok s') :
    NotesEntries [] s s' := by
  obtain ⟨⟨name, body⟩, -, h⟩ := exists_of_bind_eq_ok h
  exact notesEntries_individualOf h

theorem notesEntries_declareIndividuals (h : s.declareIndividuals t = .ok s') :
    NotesEntries [] s s' := by
  obtain ⟨entries, -, h⟩ := exists_of_bind_eq_ok h
  obtain ⟨_, -, h⟩ := exists_of_bind_eq_ok h
  refine notesEntries_foldlM (fun name s₁ s₂ h => ?_) h
  obtain ⟨text, -, h⟩ := exists_of_bind_eq_ok h
  exact notesEntries_individualOf h

theorem notesEntries_declareProperty {kind : PropertyKind} (h : s.declareProperty kind t = .ok s') :
    NotesEntries [] s s' := by
  obtain ⟨d, inner, body, p, s₁, -, -, -, hadd, hfacts, hd, -⟩ := declareProperty_eq_ok h
  exact (notesEntries_addProperty hd hadd).trans (notesEntries_applyFacts hfacts)

theorem notesEntries_declareInverse (h : s.declareInverse t = .ok s') : NotesEntries [] s s' := by
  obtain ⟨d, inner, body, p, s₁, -, -, -, hadd, hfacts, hd, -⟩ := declareInverse_eq_ok h
  exact (notesEntries_addProperty hd hadd).trans (notesEntries_applyFacts hfacts)

theorem notesEntries_propertyFacts (h : s.propertyFacts t = .ok s') : NotesEntries [] s s' := by
  obtain ⟨facts, -, rfl⟩ := states_propertyFacts h
  exact .of_sameVocabulary (sameVocabulary_stateFacts _ _)

/-- A restriction is no parent. -/
theorem parents_addClassAxiom (w : World) (c : ClassId) (r : Restriction) (c' : ClassId) :
    ((w.addClassAxiom c r.toExpression).getClass c').parents = (w.getClass c').parents := by
  rw [getClass, getClass, class?, class?, addClassAxiom, modifyClass, Array.getElem?_modify]
  split
  · cases w.classes[c'.index]? with
    | none => rfl
    | some d => exact parents_append_restrictions d [r]
  · rfl

theorem notesEntries_addRestriction (h : s.addRestriction t = .ok s') : NotesEntries [] s s' := by
  obtain ⟨_, r, -, -, ⟨i, -, rfl⟩ | ⟨c, -, rfl⟩⟩ := addRestriction_eq_ok h
  · exact .of_sameVocabulary ⟨_, rfl⟩
  · exact ⟨⟨fun c' => parents_addClassAxiom s.world c r c', fun _ => rfl, rfl⟩, rfl⟩

theorem notesEntries_addDifferent (h : s.addDifferent t = .ok s') : NotesEntries [] s s' := by
  obtain ⟨group, -, h⟩ := exists_of_bind_eq_ok h
  rw [← Except.ok.inj h]
  exact ⟨⟨fun _ => rfl, fun _ => rfl, rfl⟩, rfl⟩

theorem notesEntries_addAnnotation (h : s.addAnnotation t = .ok s') : NotesEntries [] s s' := by
  obtain ⟨comment, -, h⟩ := exists_of_bind_eq_ok h
  rw [← Except.ok.inj h]
  exact ⟨⟨fun _ => rfl, fun _ => rfl, rfl⟩, rfl⟩

theorem notesEntries_addRule (h : s.addRule t = .ok s') : NotesEntries [] s s' := by
  obtain ⟨r, world, id, -, hadd, rfl⟩ := addRule_eq_ok h
  exact notesEntries_add (a := .rule r) (by rw [Addition.perform, hadd]; rfl) (by simp) (by simp)

theorem notesEntries_addImportedClasses {qualifier : String}
    {found classes : List (String × ClassId)}
    {iris : List String} (h : s.addImportedClasses qualifier found iris = .ok (s', classes)) :
    NotesEntries [] s s' := by
  induction iris generalizing s found with
  | nil =>
    rw [addImportedClasses] at h
    obtain ⟨rfl, -⟩ := Prod.mk.inj (Except.ok.inj h)
    exact .refl _
  | cons iri rest ih =>
    rw [addImportedClasses] at h
    dsimp only at h
    split at h
    · exact ih h
    · obtain ⟨⟨world, c⟩, hadd, h⟩ := exists_of_bind_eq_ok h
      have hadded : NotesEntries [] s { s with world } :=
        notesEntries_add (a := .importedClass (qualifier ++ localName iri) (localName iri) iri)
          (map_of_ofNames hadd) (by simp) (by simp)
      exact hadded.trans (ih h)

theorem notesEntries_addImport (h : s.addImport t = .ok s') : NotesEntries [] s s' := by
  obtain ⟨iris, s₁, j, hread, rfl⟩ := addImport_eq_ok h
  have hlisted : NotesEntries [] s₁ { s₁ with world := s₁.world.addImport j } :=
    notesEntries_add (a := .ontology j) rfl (by simp) (by simp)
  exact (notesEntries_addImportedClasses hread).trans hlisted

/-- **Statements that neither declare classes nor have entries note nothing.** -/
theorem notesEntries_perform {kind : Statement} (hone : kind ≠ .oneClass)
    (hclasses : kind ≠ .classes) (hrelation : kind ≠ .relationFacts)
    (h : s.perform kind t = .ok s') : NotesEntries [] s s' := by
  cases kind with
  | importFile => exact notesEntries_addImport h
  | comments => exact notesEntries_addAnnotation h
  | individual => exact notesEntries_declareIndividual h
  | individuals => exact notesEntries_declareIndividuals h
  | oneClass => exact absurd rfl hone
  | classes => exact absurd rfl hclasses
  | objectProperty | dataProperty => exact notesEntries_declareProperty h
  | inverseProperty => exact notesEntries_declareInverse h
  | propertyFacts => exact notesEntries_propertyFacts h
  | relationFacts => exact absurd rfl hrelation
  | restriction => exact notesEntries_addRestriction h
  | rule => exact notesEntries_addRule h
  | differentIndividuals => exact notesEntries_addDifferent h

/-! ### Entries -/

theorem notesEntries_addEntry {concept : ClassId} {i : IndividualId}
    (h : s.addEntry concept = .ok (s', i)) : NotesEntries [concept] s s' := by
  obtain ⟨⟨s₁, i⟩, hadd, h⟩ := exists_of_bind_eq_ok h
  obtain ⟨rfl, rfl⟩ := Prod.mk.inj (Except.ok.inj h)
  have hadded := notesEntries_addIndividual hadd
  exact ⟨⟨hadded.classParents, hadded.propertyParents, by rw [hadded.concepts]; rfl⟩,
    hadded.attributes⟩

theorem notesEntries_applyRole {i : IndividualId} {role : Term} {value : PairValue}
    (h : s.applyRole i role value = .ok s') : NotesEntries [] s s' := by
  rw [applyRole] at h
  split at h
  · split at h
    · cases h
    · exact notesEntries_applyFact h
  · cases h

/-- An entry is noted under its concept. -/
theorem notesEntries_applyEntry {subject : IndividualId} {p : PropertyId} {concept : ClassId}
    {n : Node} (h : s.applyEntry subject p concept n = .ok s') : NotesEntries [concept] s s' := by
  cases n with
  | pairs roles =>
    obtain ⟨⟨s₁, i⟩, hadd, h⟩ := exists_of_bind_eq_ok h
    have hpush : NotesEntries [] s₁
        { s₁ with world := s₁.world.pushFact subject p (.individual i) } :=
      .of_sameVocabulary ⟨_, rfl⟩
    have hroles := notesEntries_foldlM (fun pair s₁ s₂ h => notesEntries_applyRole h) h
    exact ((notesEntries_addEntry hadd).trans hpush).trans hroles
  | _ => cases h

/-- All entries of a role are noted. -/
theorem notesEntries_foldlM_applyEntry {subject : IndividualId} {p : PropertyId} {concept : ClassId}
    {ns : List Node} (h : ns.foldlM (fun s n => s.applyEntry subject p concept n) s = .ok s') :
    NotesEntries (List.replicate ns.length concept) s s' := by
  induction ns generalizing s with
  | nil =>
    rw [Except.ok.inj h]
    exact .refl _
  | cons n rest ih =>
    rw [List.foldlM_cons] at h
    obtain ⟨mid, hmid, h⟩ := exists_of_bind_eq_ok h
    rw [List.length_cons, List.replicate_succ']
    exact (notesEntries_applyEntry hmid).trans (ih h)

/-- Parts that note entries only do so together. -/
theorem exists_notesEntries_foldlM {α : Type} {f : LoadSession → α → Loading LoadSession}
    {as : List α} (hf : ∀ a s₁ s₂, f s₁ a = .ok s₂ → ∃ entries, NotesEntries entries s₁ s₂)
    (h : as.foldlM f s = .ok s') : ∃ entries, NotesEntries entries s s' :=
  rel_of_foldlM (R := fun s₁ s₂ => ∃ entries, NotesEntries entries s₁ s₂) (fun s => ⟨[], .refl s⟩)
    (fun _ _ _ ⟨_, hentries⟩ ⟨_, hfurther⟩ => ⟨_, hentries.trans hfurther⟩)
    (fun a _ s₁ s₂ _ h => hf a s₁ s₂ h) h

theorem exists_notesEntries_relationFacts (h : s.relationFacts t = .ok s') :
    ∃ entries, NotesEntries entries s s' := by
  obtain ⟨_, -, h⟩ := exists_of_bind_eq_ok h
  obtain ⟨subjects, -, h⟩ := exists_of_bind_eq_ok h
  refine exists_notesEntries_foldlM (fun row s₁ s₂ h => ?_) h
  obtain ⟨subject, -, h⟩ := exists_of_bind_eq_ok h
  obtain ⟨_, -, h⟩ := exists_of_bind_eq_ok h
  obtain ⟨roles, -, h⟩ := exists_of_bind_eq_ok h
  refine exists_notesEntries_foldlM (fun pair s₁ s₂ h => ?_) h
  dsimp only at h
  rw [applyEntries] at h
  split at h
  · split at h
    · exact ⟨_, notesEntries_foldlM_applyEntry h⟩
    · cases h
  · cases h

end LoadSession

end Ontology
