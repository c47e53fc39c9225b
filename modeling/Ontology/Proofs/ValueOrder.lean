import Ontology.Proofs.WrittenFacts

/-!
# The order of stated values

The values of a loaded ontology are those of the facts that its document writes, from the first
statement to the last: of a functional property the last one, of any other property all of them.  No
statement but those of facts about relations states anything else.

## Main definitions

* `World.valuesOf`, `World.valuesAfter` — the values of facts, and what they make of those before.
* `LoadSession.statedFacts?` — the facts that statements mean.

## Main results

* `World.assertedValues_stateFacts` — what stating facts does to values.
* `LoadSession.exists_states_of_perform` — a statement states the facts that are written in it.
* `World.assertedValues_of_load` — **the values of a loaded ontology are those of its facts.**
-/

namespace Ontology

namespace World

variable {w w' : World} {i : IndividualId} {p : PropertyId}

/-! ### Values of facts -/

/-- The values that facts give to a property of an individual, in their order. -/
def valuesOf (facts : List Fact) (i : IndividualId) (p : PropertyId) : List Value :=
  facts.filterMap fun f => if f.subject = i ∧ f.property = p then some f.value else none

/-- What further values make of those before: of a functional property the last one stays, of any
other property all of them. -/
def valuesAfter (w : World) (p : PropertyId) (vs further : List Value) : List Value :=
  if (w.getProperty p).characteristics.functional then further.getLast?.elim vs ([·])
  else vs ++ further

theorem valuesAfter_nil (vs : List Value) : w.valuesAfter p vs [] = vs := by
  simp [valuesAfter]

theorem valuesAfter_append (vs as bs : List Value) :
    w.valuesAfter p (w.valuesAfter p vs as) bs = w.valuesAfter p vs (as ++ bs) := by
  rw [valuesAfter, valuesAfter, valuesAfter]
  split
  · rw [List.getLast?_append]
    cases bs.getLast? <;> rfl
  · exact List.append_assoc _ _ _

theorem valuesOf_append (facts further : List Fact) (i : IndividualId) (p : PropertyId) :
    valuesOf (facts ++ further) i p = valuesOf facts i p ++ valuesOf further i p :=
  List.filterMap_append

theorem assertedValues_stateFact {f : Fact} (hf : w.Has (.individual f.subject)) :
    (w.stateFact f).assertedValues i p =
      w.valuesAfter p (w.assertedValues i p) (valuesOf [f] i p) := by
  rw [stateFact, assertedValues_write, subject_writeOf, property_writeOf]
  by_cases h : f.subject = i ∧ f.property = p
  · obtain ⟨rfl, rfl⟩ := h
    rw [if_pos ⟨rfl, mem_individualIds_iff_has.mpr hf, rfl⟩, writeOf, valuesAfter]
    split <;> simp [valuesOf, Write.valuesAfter]
  · have hnone : valuesOf [f] i p = [] := by simp [valuesOf, h]
    rw [hnone, valuesAfter_nil, if_neg fun hmeets => h ⟨hmeets.1, hmeets.2.2.symm⟩]

theorem has_stateFact {f : Fact} {r : Reference} : (w.stateFact f).Has r ↔ w.Has r := by
  rw [stateFact, write_eq]
  cases r <;> simp [Has, HasEntry, modifyIndividual, Reference.entity]

theorem has_stateFacts {facts : List Fact} {r : Reference} :
    (w.stateFacts facts).Has r ↔ w.Has r := by
  induction facts generalizing w with
  | nil => rfl
  | cons f rest ih => exact ih.trans has_stateFact

theorem SameVocabulary.valuesAfter (h : w.SameVocabulary w') :
    w'.valuesAfter = w.valuesAfter := by
  obtain ⟨_, rfl⟩ := h
  rfl

/-- Facts change the values of their subjects and properties, one after the other. -/
theorem assertedValues_stateFacts {facts : List Fact}
    (hfacts : ∀ f ∈ facts, w.Has (.individual f.subject)) :
    (w.stateFacts facts).assertedValues i p =
      w.valuesAfter p (w.assertedValues i p) (valuesOf facts i p) := by
  induction facts generalizing w with
  | nil => exact (valuesAfter_nil _).symm
  | cons f rest ih =>
    obtain ⟨hf, hrest⟩ := List.forall_mem_cons.mp hfacts
    have hkeep : w.SameVocabulary (w.stateFact f) := sameVocabulary_stateFacts w [f]
    calc (w.stateFacts (f :: rest)).assertedValues i p
      _ = (w.stateFact f).valuesAfter p ((w.stateFact f).assertedValues i p)
            (valuesOf rest i p) := ih fun f' hf' => has_stateFact.mpr (hrest f' hf')
      _ = w.valuesAfter p (w.valuesAfter p (w.assertedValues i p) (valuesOf [f] i p))
            (valuesOf rest i p) := by rw [assertedValues_stateFact hf, hkeep.valuesAfter]
      _ = w.valuesAfter p (w.assertedValues i p) (valuesOf (f :: rest) i p) := by
          rw [valuesAfter_append, ← valuesOf_append, List.singleton_append]

/-- Nothing is stated and nothing is taken back. -/
def SameValues (w w' : World) : Prop :=
  ∀ i p, w'.assertedValues i p = w.assertedValues i p

protected theorem SameValues.refl (w : World) : w.SameValues w :=
  fun _ _ => rfl

protected theorem SameValues.trans {w'' : World} (h : w.SameValues w') (h' : w'.SameValues w'') :
    w.SameValues w'' :=
  fun i p => (h' i p).trans (h i p)

theorem sameValues_perform {a : Addition} {o : Option Entity} (h : a.perform w = .ok (w', o)) :
    w.SameValues w' := by
  intro i p
  rcases Addition.perform_eq_ok h with ⟨-, rfl⟩ | ⟨name, e, names, -, -, rfl⟩
  · exact assertedValues_put _ _ i p
  · exact assertedValues_put _ _ i p

end World

namespace LoadSession

open World

variable {s s' : LoadSession} {t : Tree}

/-! ### Statements that state nothing -/

theorem sameValues_foldlM {α : Type} {f : LoadSession → α → Loading LoadSession} {as : List α}
    (hf : ∀ a s₁ s₂, f s₁ a = .ok s₂ → s₁.world.SameValues s₂.world)
    (h : as.foldlM f s = .ok s') : s.world.SameValues s'.world :=
  rel_of_foldlM (R := fun s₁ s₂ => s₁.world.SameValues s₂.world) (fun _ => .refl _)
    (fun _ _ _ h h' => h.trans h') (fun a _ s₁ s₂ _ h => hf a s₁ s₂ h) h

theorem sameValues_addClass {c : Class} {id : ClassId} (h : s.addClass c = .ok (s', id)) :
    s.world.SameValues s'.world := by
  obtain ⟨⟨world, id⟩, hadd, h⟩ := exists_of_bind_eq_ok h
  obtain ⟨rfl, rfl⟩ := Prod.mk.inj (Except.ok.inj h)
  exact sameValues_perform (a := .class c) (map_of_ofNames hadd)

theorem sameValues_addProperty {d : Property} {p : PropertyId}
    (h : s.addProperty d = .ok (s', p)) : s.world.SameValues s'.world := by
  obtain ⟨⟨world, id⟩, hadd, h⟩ := exists_of_bind_eq_ok h
  obtain ⟨rfl, rfl⟩ := Prod.mk.inj (Except.ok.inj h)
  exact sameValues_perform (a := .property d) (map_of_ofNames hadd)

theorem sameValues_addIndividual {name : String} {type : ClassExpression} {i : IndividualId}
    (h : s.addIndividual name type = .ok (s', i)) : s.world.SameValues s'.world :=
  sameValues_perform (perform_of_addIndividual h).1

theorem sameValues_individualOf {name : String} {body : Tree}
    (h : s.individualOf name body = .ok s') : s.world.SameValues s'.world := by
  obtain ⟨type, i, hadd, -⟩ := individualOf_eq_ok h
  exact sameValues_addIndividual hadd

theorem sameValues_declareIndividual (h : s.declareIndividual t = .ok s') :
    s.world.SameValues s'.world := by
  obtain ⟨⟨name, body⟩, -, h⟩ := exists_of_bind_eq_ok h
  exact sameValues_individualOf h

theorem sameValues_declareIndividuals (h : s.declareIndividuals t = .ok s') :
    s.world.SameValues s'.world := by
  obtain ⟨entries, -, h⟩ := exists_of_bind_eq_ok h
  obtain ⟨_, -, h⟩ := exists_of_bind_eq_ok h
  refine sameValues_foldlM (fun name s₁ s₂ h => ?_) h
  obtain ⟨text, -, h⟩ := exists_of_bind_eq_ok h
  exact sameValues_individualOf h

theorem sameValues_noteConcept {name : String} {c : ClassId} {body : List (String × Node)}
    (h : s.noteConcept name c body = .ok s') : s.world.SameValues s'.world := by
  rcases noteConcept_cases h with rfl | h | h
  · exact .refl _
  · obtain ⟨⟨s₁, p⟩, hadd, h⟩ := exists_of_bind_eq_ok h
    have hadded : s.world.SameValues s₁.world := sameValues_addProperty hadd
    rw [← Except.ok.inj h]
    exact hadded
  · obtain ⟨d, p, hadd, -⟩ := addMainRole_eq_ok h
    exact sameValues_addProperty hadd

theorem sameValues_addProxy {c : ClassId} {body : List (String × Node)}
    (h : s.addProxy c body = .ok s') : s.world.SameValues s'.world := by
  obtain ⟨flag, -, ⟨-, rfl⟩ | ⟨value, i, -, hadd⟩⟩ := addProxy_eq_ok h
  · exact .refl _
  · -- the flag is kept with the names
    have hflag : s.world.SameValues
        { s.world with names := s.world.names.setAttribute (.class c) proxyKey value } :=
      fun _ _ => rfl
    have hadded := sameValues_addIndividual hadd
    exact hflag.trans hadded

theorem sameValues_declareClass (h : s.declareClass t = .ok s') :
    s.world.SameValues s'.world := by
  obtain ⟨c, inner, body, id, s₁, s₂, -, -, hadd, hconcept, hproxy⟩ := declareClass_eq_ok h
  exact ((sameValues_addClass hadd).trans (sameValues_noteConcept hconcept)).trans
    (sameValues_addProxy hproxy)

theorem sameValues_declareClasses (h : s.declareClasses t = .ok s') :
    s.world.SameValues s'.world := by
  rw [declareClasses] at h
  split at h
  · exact sameValues_foldlM (fun _ _ _ => sameValues_declareClass) h
  · cases h

theorem sameValues_addRestriction (h : s.addRestriction t = .ok s') :
    s.world.SameValues s'.world := by
  obtain ⟨_, _, -, -, ⟨i, -, rfl⟩ | ⟨c, -, rfl⟩⟩ := addRestriction_eq_ok h
  · intro j p
    rw [assertedValues, assertedValues, addIndividualAxiom, getIndividual_modifyIndividual]
    split <;> rfl
  · exact fun _ _ => rfl

theorem sameValues_addDifferent (h : s.addDifferent t = .ok s') :
    s.world.SameValues s'.world := by
  obtain ⟨group, -, h⟩ := exists_of_bind_eq_ok h
  rw [← Except.ok.inj h]
  exact fun _ _ => rfl

theorem sameValues_addAnnotation (h : s.addAnnotation t = .ok s') :
    s.world.SameValues s'.world := by
  obtain ⟨comment, -, h⟩ := exists_of_bind_eq_ok h
  rw [← Except.ok.inj h]
  exact fun _ _ => rfl

theorem sameValues_addRule (h : s.addRule t = .ok s') : s.world.SameValues s'.world := by
  obtain ⟨r, world, id, -, hadd, rfl⟩ := addRule_eq_ok h
  exact sameValues_perform (a := .rule r) (by rw [Addition.perform, hadd]; rfl)

theorem sameValues_addImportedClasses {qualifier : String} {found classes : List (String × ClassId)}
    {iris : List String} (h : s.addImportedClasses qualifier found iris = .ok (s', classes)) :
    s.world.SameValues s'.world := by
  induction iris generalizing s found with
  | nil =>
    rw [addImportedClasses] at h
    obtain ⟨rfl, -⟩ := Prod.mk.inj (Except.ok.inj h)
    exact .refl _
  | cons iri rest ih =>
    rw [addImportedClasses] at h
    dsimp only at h
    split at h
    · exact ih h
    · obtain ⟨⟨world, c⟩, hadd, h⟩ := exists_of_bind_eq_ok h
      have hadded : s.world.SameValues world :=
        sameValues_perform (a := .importedClass (qualifier ++ localName iri) (localName iri) iri)
          (map_of_ofNames hadd)
      exact hadded.trans (ih h)

theorem sameValues_addImport (h : s.addImport t = .ok s') : s.world.SameValues s'.world := by
  obtain ⟨iris, s₁, j, hread, rfl⟩ := addImport_eq_ok h
  have hclasses : s.world.SameValues s₁.world := sameValues_addImportedClasses hread
  exact hclasses

/-! ### Statements that state facts -/

theorem propertyNamed?_of_addProperty {d : Property} {p : PropertyId}
    (h : s.addProperty d = .ok (s', p)) : s'.world.propertyNamed? d.name = some p := by
  obtain ⟨⟨world, id⟩, hadd, h⟩ := exists_of_bind_eq_ok h
  obtain ⟨rfl, rfl⟩ := Prod.mk.inj (Except.ok.inj h)
  obtain ⟨names, hnames, hadd⟩ := exists_of_bind_eq_ok (ok_of_ofNames hadd)
  obtain ⟨rfl, rfl⟩ := Prod.mk.inj (Except.ok.inj hadd)
  rw [propertyNamed?_eq_some_iff, Namespace.get?_of_insert hnames, if_pos rfl]

/-- A declaration states the facts in its body once the property is there. -/
theorem exists_states_of_declaration {s₁ : LoadSession} {inner : Tree}
    {body : List (String × Node)} {d : Property} {p : PropertyId}
    (hdeclares : s.Declares t d.name inner body) (hadd : s.addProperty d = .ok (s₁, p))
    (h : s₁.applyFacts p body = .ok s') : ∃ s₁, s.world.SameValues s₁.world ∧
      States s.world s'.world (t.namedEntries.flatMap fun (name, body) => body.factsBelow name)
        s₁ s' := by
  obtain ⟨rfl, hread⟩ := hdeclares
  have hstates : States s.world s₁.world (inner.factsBelow d.name) s₁ s' :=
    states_applyFacts (propertyNamed?_of_addProperty hadd) (.refl _) hread h
  refine ⟨s₁, sameValues_addProperty hadd, ?_⟩
  have hwritten : ((Tree.mapping [(.string d.name, inner)]).namedEntries.flatMap
      fun (name, body) => body.factsBelow name) = inner.factsBelow d.name := List.append_nil _
  rw [hwritten]
  exact hstates.congr (.refl _) hstates.sameVocabulary

theorem exists_states_of_declareProperty {kind : PropertyKind}
    (h : s.declareProperty kind t = .ok s') : ∃ s₁, s.world.SameValues s₁.world ∧
      States s.world s'.world (t.namedEntries.flatMap fun (name, body) => body.factsBelow name)
        s₁ s' := by
  obtain ⟨d, inner, body, p, s₁, hdeclares, -, -, hadd, h, -⟩ := declareProperty_eq_ok h
  exact exists_states_of_declaration hdeclares hadd h

theorem exists_states_of_declareInverse (h : s.declareInverse t = .ok s') :
    ∃ s₁, s.world.SameValues s₁.world ∧
      States s.world s'.world (t.namedEntries.flatMap fun (name, body) => body.factsBelow name)
        s₁ s' := by
  obtain ⟨d, inner, body, p, s₁, hdeclares, -, -, hadd, h, -⟩ := declareInverse_eq_ok h
  exact exists_states_of_declaration hdeclares hadd h

/-- **A statement states the facts that are written in it.** -/
theorem exists_states_of_perform {kind : Statement} (hkind : kind ≠ .relationFacts)
    (h : s.perform kind t = .ok s') : ∃ s₁, s.world.SameValues s₁.world ∧
      States s.world s'.world (kind.writtenFacts t) s₁ s' := by
  have hnone : s.world.SameValues s'.world → ∃ s₁, s.world.SameValues s₁.world ∧
      States s.world s'.world [] s₁ s' := fun hsame => ⟨s', hsame, states_nil⟩
  cases kind with
  | importFile => exact hnone (sameValues_addImport h)
  | comments => exact hnone <| sameValues_addAnnotation h
  | individual => exact hnone (sameValues_declareIndividual h)
  | individuals => exact hnone (sameValues_declareIndividuals h)
  | oneClass => exact hnone (sameValues_declareClass h)
  | classes => exact hnone (sameValues_declareClasses h)
  | objectProperty | dataProperty => exact exists_states_of_declareProperty h
  | inverseProperty => exact exists_states_of_declareInverse h
  | propertyFacts => exact ⟨s, .refl _, states_propertyFacts h⟩
  | relationFacts => exact absurd rfl hkind
  | restriction => exact hnone (sameValues_addRestriction h)
  | rule => exact hnone (sameValues_addRule h)
  | differentIndividuals => exact hnone (sameValues_addDifferent h)

/-! ### Documents -/

/-- The facts that statements mean, in the order in which they are written. -/
def statedFacts? (s : LoadSession) : List (String × Tree) → Option (List Fact)
  | [] => some []
  | (keyword, t) :: rest => do
    let next ← (s.statement keyword t).toOption
    let written := (Statement.ofKeyword? keyword).elim [] fun kind => kind.writtenFacts t
    let facts ← written.mapM (s.world.readFact? next.world)
    return facts ++ (← next.statedFacts? rest)

/-- The subject and the property of a fact that is read are there. -/
theorem has_of_readFact? {before after : World} {f : WrittenFact} {fact : Fact}
    (hbefore : before.IsGrounded) (hafter : after.IsGrounded)
    (h : before.readFact? after f = some fact) :
    before.Has (.individual fact.subject) ∧ after.Has (.property fact.property) := by
  obtain ⟨p, hp, h⟩ := Option.bind_eq_some_iff.mp h
  obtain ⟨i, hi, h⟩ := Option.bind_eq_some_iff.mp h
  obtain ⟨term, -, h⟩ := Option.bind_eq_some_iff.mp h
  obtain ⟨v, -, h⟩ := Option.bind_eq_some_iff.mp h
  rw [← Option.some.inj h]
  exact ⟨hbefore.has_of_knows (knows_of_individualNamed? hi),
    hafter.has_of_knows (knows_of_propertyNamed? hp)⟩

/-- What a statement does to the values. -/
theorem assertedValues_statement {keyword : String} (hs : s.IsGrounded)
    (hkeyword : keyword ≠ Statement.relationFacts.keyword) (h : s.statement keyword t = .ok s') :
    ∃ facts, ((Statement.ofKeyword? keyword).elim [] fun kind => kind.writtenFacts t).mapM
        (s.world.readFact? s'.world) = some facts ∧
      (∀ f ∈ facts, s'.world.Has (.property f.property)) ∧
      ∀ i p, s'.world.assertedValues i p =
        s'.world.valuesAfter p (s.world.assertedValues i p) (valuesOf facts i p) := by
  have hsteps : s.LeadsTo [] s' := leadsTo_statement (fun heq => absurd heq hkeyword) h
  have hs' : s'.IsGrounded := hsteps.isGrounded hs
  rcases statement_eq_ok_iff.mp h with ⟨rfl, rfl⟩ | ⟨kind, hkind, hperform⟩
  · have hiri : Statement.ofKeyword? "iri" = none := by decide
    rw [hiri]
    exact ⟨[], rfl, by simp, fun i p => (valuesAfter_nil _).symm⟩
  · have hrelation : kind ≠ .relationFacts := by
      rintro rfl
      exact hkeyword (keyword_of_ofKeyword? hkind).symm
    obtain ⟨s₁, hsame, facts, hfacts, hworld⟩ := exists_states_of_perform hrelation hperform
    have hhas : ∀ f ∈ facts, s.world.Has (.individual f.subject) ∧
        s'.world.Has (.property f.property) := by
      intro f hf
      obtain ⟨written, -, hread⟩ := exists_of_forall₂_right hfacts hf
      exact has_of_readFact? hs.world hs'.world hread
    rw [hkind]
    refine ⟨facts, mapM_eq_some_of_forall₂ hfacts, fun f hf => (hhas f hf).2, fun i p => ?_⟩
    have hworld : s'.world = s₁.world.stateFacts facts := congrArg LoadSession.world hworld
    -- the subjects of the facts were there before the statement
    have hsubjects : ∀ f ∈ facts, s₁.world.Has (.individual f.subject) := by
      intro f hf
      have hafter : s'.world.Has (.individual f.subject) := hsteps.isExtendedBy.has (hhas f hf).1
      rw [hworld] at hafter
      exact has_stateFacts.mp hafter
    rw [hworld, assertedValues_stateFacts hsubjects, hsame,
      (sameVocabulary_stateFacts s₁.world facts).valuesAfter]

/-- Values of facts about a property that is there become the same in any larger ontology. -/
theorem valuesAfter_of_isExtendedBy {w w' : World} {facts : List Fact} (hw : w.IsExtendedBy w')
    (hfacts : ∀ f ∈ facts, w.Has (.property f.property)) (vs : List Value) (i : IndividualId)
    (p : PropertyId) :
    w'.valuesAfter p vs (valuesOf facts i p) = w.valuesAfter p vs (valuesOf facts i p) := by
  by_cases hp : w.Has (.property p)
  · rw [World.valuesAfter, hw.getProperty hp, World.valuesAfter]
  · have hnone : valuesOf facts i p = [] := by
      refine List.filterMap_eq_nil_iff.mpr fun f hf => if_neg ?_
      rintro ⟨-, rfl⟩
      exact hp (hfacts f hf)
    rw [hnone, valuesAfter_nil, valuesAfter_nil]

/-- What statements do to the values, one after the other. -/
theorem assertedValues_load {statements : List (String × Tree)} (hs : s.IsGrounded)
    (hnone : ∀ t, (Statement.relationFacts.keyword, t) ∉ statements)
    (h : s.load statements = .ok s') :
    ∃ facts, s.statedFacts? statements = some facts ∧
      (∀ f ∈ facts, s'.world.Has (.property f.property)) ∧
      ∀ i p, s'.world.assertedValues i p =
        s'.world.valuesAfter p (s.world.assertedValues i p) (valuesOf facts i p) := by
  induction statements generalizing s with
  | nil =>
    rw [← Except.ok.inj h]
    exact ⟨[], rfl, by simp, fun i p => (valuesAfter_nil _).symm⟩
  | cons statement rest ih =>
    obtain ⟨keyword, t⟩ := statement
    rw [load, List.foldlM_cons] at h
    obtain ⟨mid, hmid, h⟩ := exists_of_bind_eq_ok h
    dsimp only at hmid
    have hkeyword : keyword ≠ Statement.relationFacts.keyword := by
      rintro rfl
      exact hnone t List.mem_cons_self
    have hfirst : s.LeadsTo [] mid := leadsTo_statement (fun heq => absurd heq hkeyword) hmid
    have hrest : mid.LeadsTo [] s' := leadsTo_load (fun keyword body hmem heq =>
      absurd (heq ▸ List.mem_cons_of_mem _ hmem) (hnone body)) h
    obtain ⟨facts, hfacts, hproperties, hvalues⟩ := assertedValues_statement hs hkeyword hmid
    obtain ⟨further, hfurther, hproperties', hvalues'⟩ := ih (hfirst.isGrounded hs)
      (fun t ht => hnone t (List.mem_cons_of_mem _ ht)) h
    refine ⟨facts ++ further, ?_, ?_, fun i p => ?_⟩
    · simp [statedFacts?, hmid, hfacts, hfurther, Except.toOption]
    · intro f hf
      rcases List.mem_append.mp hf with hf | hf
      · exact hrest.isExtendedBy.has (hproperties f hf)
      · exact hproperties' f hf
    · rw [hvalues', hvalues, valuesOf_append, ← valuesAfter_append,
        valuesAfter_of_isExtendedBy hrest.isExtendedBy hproperties]

end LoadSession

namespace World

/-- **The values of a loaded ontology are those of its facts,** as long as no statement is about
relations: of a functional property the one that is written last, of any other property all of them
in the order of the document. -/
theorem assertedValues_of_load {settings : LoadSettings} {folder : Folder} {base : String}
    {document : Tree} {statements : List (String × Tree)} {w : World}
    (hstatements : Shape.statements document = .ok statements)
    (hnone : ∀ t, (Statement.relationFacts.keyword, t) ∉ statements)
    (h : load settings folder base document = .ok w) :
    ∃ facts, LoadSession.statedFacts?
        { world := { iri := (Shape.baseIri? statements).getD settings.defaultIri }
          settings, folder, base } statements = some facts ∧
      ∀ i p, w.assertedValues i p =
        if (w.getProperty p).characteristics.functional then (valuesOf facts i p).getLast?.toList
        else valuesOf facts i p := by
  obtain ⟨again, hagain, h⟩ := exists_of_bind_eq_ok h
  obtain rfl : statements = again := Except.ok.inj (hstatements.symm.trans hagain)
  obtain ⟨s, hs, h⟩ := exists_of_bind_eq_ok h
  rw [← Except.ok.inj h]
  obtain ⟨facts, hfacts, -, hvalues⟩ :=
    LoadSession.assertedValues_load (LoadSession.isGrounded_new _ settings folder base) hnone hs
  refine ⟨facts, hfacts, fun i p => ?_⟩
  have hempty : World.assertedValues
    { iri := (Shape.baseIri? statements).getD settings.defaultIri } i p = [] := rfl
  rw [hvalues, hempty, valuesAfter]
  split
  · cases (valuesOf facts i p).getLast? <;> rfl
  · rfl

/-! ### A squad -/

/-- Kim is trained by Pat, and then by nobody, and meets Pat twice. -/
def squadStatements : List (String × Tree) := [
  ("owl_class", .object [("Runner", .null)]),
  ("owl_multiple_individuals", .object [
    ("names", .sequence [.string "kim", .string "pat", .string "sam"]),
    ("types", .sequence [.string "Runner"])]),
  ("owl_object_property", .object [("trained_by", .object [
    ("Domain", .string "Runner"),
    ("Range", .string "Runner"),
    ("Characteristics", .sequence [.string "Functional"]),
    ("Facts", .sequence [.object [("kim", .string "pat")]])])]),
  ("owl_object_property", .object [("meets", .object [
    ("Domain", .string "Runner"),
    ("Range", .string "Runner"),
    ("Facts", .sequence [.object [("kim", .sequence [.string "pat", .string "sam"])]])])]),
  ("property_facts", .object [
    ("trained_by", .object [("Facts", .sequence [.object [("kim", .string "owl:Nothing")]])]),
    ("meets", .object [("Facts", .sequence [.object [("kim", .string "pat")]])])])]

/-- The document of these statements. -/
def squadDocument : Tree :=
  .sequence (squadStatements.map fun statement => .object [statement])

/-- The ontology of the document. -/
def squad : World :=
  (load {} {} "" squadDocument).toOption.getD default

theorem load_squadDocument : load {} {} "" squadDocument = .ok squad :=
  eq_ok_of_isSome (by decide +kernel)

/-- Nobody is the only trainer that is left. -/
theorem assertedValues_of_load_squad :
    Shape.statements squadDocument = .ok squadStatements ∧
    (∀ t, (Statement.relationFacts.keyword, t) ∉ squadStatements) ∧
    (squad.getProperty ⟨0⟩).characteristics.functional = true ∧
    squad.assertedValues ⟨0⟩ ⟨0⟩ = [.expression .nothing] ∧
    (squad.getProperty ⟨1⟩).characteristics.functional = false ∧
    squad.assertedValues ⟨0⟩ ⟨1⟩ = [.individual ⟨1⟩, .individual ⟨2⟩, .individual ⟨1⟩] := by
  have hnone : ∀ t, (Statement.relationFacts.keyword, t) ∉ squadStatements := by
    intro t ht
    have hkeyword : Statement.relationFacts.keyword ∈ squadStatements.map Prod.fst :=
      List.mem_map_of_mem ht
    exact absurd hkeyword (by decide)
  have hstatements : Shape.statements squadDocument = .ok squadStatements := rfl
  obtain ⟨facts, hfacts, hvalues⟩ := assertedValues_of_load hstatements hnone load_squadDocument
  have hread : facts = [⟨⟨0⟩, ⟨0⟩, .individual ⟨1⟩⟩, ⟨⟨0⟩, ⟨1⟩, .individual ⟨1⟩⟩,
      ⟨⟨0⟩, ⟨1⟩, .individual ⟨2⟩⟩, ⟨⟨0⟩, ⟨0⟩, .expression .nothing⟩,
      ⟨⟨0⟩, ⟨1⟩, .individual ⟨1⟩⟩] :=
    Option.some.inj (hfacts.symm.trans (by decide +kernel))
  have hfunctional : (squad.getProperty ⟨0⟩).characteristics.functional = true ∧
    (squad.getProperty ⟨1⟩).characteristics.functional = false := by decide +kernel
  refine ⟨hstatements, hnone, hfunctional.1, ?_, hfunctional.2, ?_⟩
  · rw [hvalues, hfunctional.1, hread]
    rfl
  · rw [hvalues, hfunctional.2, hread]
    rfl

end World

end Ontology
