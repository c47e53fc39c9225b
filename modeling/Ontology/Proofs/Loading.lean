import Ontology.Proofs.Statements

/-!
# Loading adds to an ontology

A statement changes the ontology by a sequence of additions, each of one entity, axiom, fact or
attribute.  What every addition preserves, every document preserves.  Additions are steps of loading
without the checks that come with them.

## Main definitions

* `World.Adds` — one addition.
* `World.GrowsTo` — a sequence of additions.
* `World.IsLoaded` — an ontology is that of a document, be it a tree, a text or a file.

## Main results

* `LoadSession.LeadsTo.growsTo` — steps of loading are additions.
* `World.IsLoaded.growsTo` — **a loaded ontology comes from the empty one by additions.**
* `World.isExtendedBy_of_load_append` — **further statements extend an ontology.**
-/

namespace Ontology

namespace World

/-! ### Additions -/

/-- One addition.  A property may only be declared to be the inverse of one that has a name. -/
inductive Adds (w : World) : World → Prop where
  | addClass {c : Class} {w' : World} {id : ClassId} (h : w.addClass c = .ok (w', id)) : Adds w w'
  | addImportedClass {name localName iri : String} {w' : World} {id : ClassId}
      (h : w.addImportedClass name localName iri = .ok (w', id)) : Adds w w'
  | addProperty {p : Property} {w' : World} {id : PropertyId}
      (hinverse : ∀ q, p.inverseOf = some q → ∃ name, w.lookup? name = some (.property q))
      (h : w.addProperty p = .ok (w', id)) : Adds w w'
  | addIndividual {name : String} {type : ClassExpression} {w' : World} {id : IndividualId}
      (h : w.addIndividual name type = .ok (w', id)) : Adds w w'
  | addRule {r : Rule} {w' : World} {id : RuleId} (h : w.addRule r = .ok (w', id)) : Adds w w'
  | addImport (i : Import) : Adds w (w.addImport i)
  | addComment (comment : String) : Adds w (w.addComment comment)
  | addDifferent (group : List IndividualId) : Adds w (w.addDifferent group)
  | addClassAxiom (c : ClassId) (e : ClassExpression) : Adds w (w.addClassAxiom c e)
  | addIndividualAxiom (i : IndividualId) (e : ClassExpression) : Adds w (w.addIndividualAxiom i e)
  | setFact (s : IndividualId) (p : PropertyId) (v : Value) : Adds w (w.setFact s p v)
  | pushFact (s : IndividualId) (p : PropertyId) (v : Value) : Adds w (w.pushFact s p v)
  | setAttribute (e : Entity) (key value : String) :
      Adds w { w with names := w.names.setAttribute e key value }

/-- A sequence of additions. -/
abbrev GrowsTo : World → World → Prop := Relation.ReflTransGen Adds

/-- A call that adds an entity or an import is an addition. -/
theorem adds_of_perform {a : Addition} {w w' : World} {o : Option Entity}
    (hinverse : ∀ p q, a = .property p → p.inverseOf = some q →
      ∃ name, w.lookup? name = some (.property q))
    (h : a.perform w = .ok (w', o)) : Adds w w' := by
  cases a with
  | «class» c =>
    obtain ⟨⟨_, _⟩, hadd, ⟨⟩⟩ := exists_of_map_eq_ok h
    exact .addClass hadd
  | importedClass name localName iri =>
    obtain ⟨⟨_, _⟩, hadd, ⟨⟩⟩ := exists_of_map_eq_ok h
    exact .addImportedClass hadd
  | property p =>
    obtain ⟨⟨_, _⟩, hadd, ⟨⟩⟩ := exists_of_map_eq_ok h
    exact .addProperty (hinverse p · rfl) hadd
  | individual name type =>
    obtain ⟨⟨_, _⟩, hadd, ⟨⟩⟩ := exists_of_map_eq_ok h
    exact .addIndividual hadd
  | rule r =>
    obtain ⟨⟨_, _⟩, hadd, ⟨⟩⟩ := exists_of_map_eq_ok h
    exact .addRule hadd
  | ontology i =>
    obtain ⟨rfl, -⟩ := Prod.mk.inj (Except.ok.inj h)
    exact .addImport i

end World

/-! ### Steps -/

namespace LoadSession

open World

variable {names : List (String × String)} {s s' : LoadSession}

/-- A step is an addition or a note. -/
theorem Step.growsTo (h : s.Step names s') : s.world.GrowsTo s'.world := by
  cases h with
  | add ha h => exact .single (adds_of_perform ha.inverse h)
  | comment text => exact .single (.addComment text)
  | different _ => exact .single (.addDifferent _)
  | classAxiom _ => exact .single (.addClassAxiom _ _)
  | individualAxiom _ => exact .single (.addIndividualAxiom _ _)
  | @write x _ _ _ =>
    cases x with
    | assign s p v => exact .single (.setFact s p v)
    | append s p v => exact .single (.pushFact s p v)
    | enter s p i => exact .single (.pushFact s p (.individual i))
  | setAttribute e key value => exact .single (.setAttribute e key value)
  | concepts _ => exact .refl

/-- Steps are additions. -/
theorem LeadsTo.growsTo (h : s.LeadsTo names s') : s.world.GrowsTo s'.world := by
  induction h with
  | refl => exact .refl
  | tail _ hstep ih => exact ih.trans hstep.growsTo

end LoadSession

/-! ### Loaded ontologies -/

namespace World

/-- An ontology is that of a document. -/
def IsLoaded (w : World) : Prop :=
  ∃ settings folder base document, load settings folder base document = .ok w

theorem isLoaded_of_loadText {settings : LoadSettings} {folder : Folder} {base text : String}
    {w : World} (h : loadText settings folder base text = .ok w) : w.IsLoaded := by
  rw [loadText] at h
  split at h
  · next document _ => exact ⟨settings, folder, base, document, h⟩
  · simp at h

theorem isLoaded_of_loadFile {settings : LoadSettings} {folder : Folder} {path : String}
    {w : World} (h : loadFile settings folder path = .ok w) : w.IsLoaded := by
  rw [loadFile] at h
  split at h
  · exact isLoaded_of_loadText h
  · simp at h

/-- **A loaded ontology comes from the empty one by additions.** -/
theorem IsLoaded.growsTo {w : World} (h : w.IsLoaded) : ∃ iri, GrowsTo { iri } w := by
  obtain ⟨settings, folder, base, document, h⟩ := h
  obtain ⟨iri, s, rfl, hs⟩ := leadsTo_of_load h
  exact ⟨iri, hs.growsTo⟩

/-! ### Loading more statements -/

/-- Statements that give no IRI leave it as it was. -/
theorem baseIri?_append {as bs : List (String × Tree)} (h : ∀ body, ("iri", body) ∉ bs) :
    Shape.baseIri? (as ++ bs) = Shape.baseIri? as := by
  have hnone : bs.reverse.lookup "iri" = none := by
    rw [List.lookup_eq_none_iff]
    intro statement hmem
    rw [bne_iff_ne]
    intro heq
    exact h statement.2 (heq ▸ List.mem_reverse.mp hmem)
  rw [Shape.baseIri?, List.reverse_append, List.lookup_append, hnone, Option.none_or,
    Shape.baseIri?]

/-- **Further statements extend an ontology.**  Names, properties and rules stay as they are,
classes and individuals gain restrictions, properties that are not functional gain values, and
comments, imports and groups get longer, unless the statements change the IRI that all others start
with. -/
theorem isExtendedBy_of_load_append {settings : LoadSettings} {folder : Folder} {base : String}
    {as bs : List Tree} {w w' : World}
    (hiri : ∀ t ∈ bs, ∀ body, Shape.single t ≠ .ok ("iri", body))
    (h : load settings folder base (.sequence as) = .ok w)
    (h' : load settings folder base (.sequence (as ++ bs)) = .ok w') : w.IsExtendedBy w' := by
  obtain ⟨first, hfirst, h⟩ := exists_of_bind_eq_ok h
  obtain ⟨s, hs, h⟩ := exists_of_bind_eq_ok h
  obtain ⟨both, hboth, h'⟩ := exists_of_bind_eq_ok h'
  obtain ⟨s', hs', h'⟩ := exists_of_bind_eq_ok h'
  rw [← Except.ok.inj h, ← Except.ok.inj h']
  -- the first statements are read and processed as before
  rw [Shape.statements] at hfirst
  rw [Shape.statements, List.mapM_append] at hboth
  obtain ⟨again, hagain, hboth⟩ := exists_of_bind_eq_ok hboth
  obtain rfl : first = again := Except.ok.inj (hfirst.symm.trans hagain)
  obtain ⟨more, hmore, hboth⟩ := exists_of_bind_eq_ok hboth
  rw [← Except.ok.inj hboth, baseIri?_append, LoadSession.load, List.foldlM_append] at hs'
  · rw [LoadSession.load] at hs
    obtain ⟨mid, hmid, hs'⟩ := exists_of_bind_eq_ok hs'
    rw [hs] at hmid
    rw [← Except.ok.inj hmid] at hs'
    -- whatever names the further entries come with, they extend the ontology
    have hsteps : s.LeadsTo (more.flatMap fun statement => statement.2.relationNames) s' :=
      LoadSession.leadsTo_load (fun _ _ hmem _ _ hrow => List.mem_flatMap.mpr ⟨_, hmem, hrow⟩) hs'
    exact hsteps.isExtendedBy
  · intro body hmem
    obtain ⟨t, ht, hread⟩ := exists_of_forall₂_right (mapM_eq_ok hmore) hmem
    exact hiri t ht body hread

/-! ### An expedition -/

/-- People sail on ships.  A voyage is a relation concept, so that it comes with a main role and its
entries become individuals. -/
def expeditionStatements : List Tree := [
  .object [("owl_class", .object [("X_RelationConcept", .null)])],
  .object [("owl_class", .object [("Person", .null)])],
  .object [("owl_class", .object [("Ship", .null)])],
  .object [("owl_class", .object [("Flagship", .object [("SubClassOf", .string "Ship")])])],
  .object [("owl_class", .object [("X_Voyage", .object [
    ("SubClassOf", .string "X_RelationConcept"),
    ("X_associatedWithClasses", .sequence [.string "Person"])])])],
  .object [("owl_object_property", .object [("sails", .object [
    ("Domain", .string "Person"),
    ("Range", .string "Ship")])])],
  .object [("owl_inverse_property", .object [("sailedBy", .object [
    ("Inverse", .string "sails")])])],
  .object [("owl_multiple_individuals", .object [
    ("names", .sequence [.string "ada", .string "ben"]),
    ("types", .sequence [.string "Person"])])],
  .object [("owl_individual", .object [("aurora", .object [
    ("types", .sequence [.string "Flagship"])])])],
  .object [("property_facts", .object [("sails", .object [
    ("Facts", .sequence [.object [("ben", .string "aurora")]])])])],
  .object [("relation_concept_facts", .object [("ada", .object [
    ("X_hasVoyage", .sequence [.object [("sails", .string "aurora")]])])])],
  .object [("restriction", .object [("Subject", .string "Person"),
    ("Body", .object [("sails", .object [("some", .string "Ship")])])])],
  .object [("swrl_rule", .object [("name", .string "crew"),
    ("src", .string "sails(?x, ?y) -> sailedBy(?y, ?x)")])],
  .object [("different_individuals", .sequence [.string "__all__"])]]

/-- Another ship, and more that is said of those that were there. -/
def laterStatements : List Tree := [
  .object [("owl_individual", .object [("borea", .object [
    ("types", .sequence [.string "Ship"])])])],
  .object [("property_facts", .object [("sails", .object [
    ("Facts", .sequence [.object [("ben", .string "borea")]])])])],
  .object [("restriction", .object [("Subject", .string "Ship"),
    ("Body", .object [("sailedBy", .object [("some", .string "Person")])])])],
  .object [("annotation", .string "The second season.")]]

/-- The document of these statements. -/
def expeditionDocument : Tree :=
  .sequence expeditionStatements

/-- The ontology of the document. -/
def expedition : World :=
  (load {} {} "" expeditionDocument).toOption.getD default

theorem load_expeditionDocument : load {} {} "" expeditionDocument = .ok expedition :=
  eq_ok_of_isSome (by decide +kernel)

theorem isLoaded_expedition : expedition.IsLoaded :=
  ⟨_, _, _, _, load_expeditionDocument⟩

/-- The ontology of all statements. -/
def laterExpedition : World :=
  (load {} {} "" (.sequence (expeditionStatements ++ laterStatements))).toOption.getD default

/-- Ships have something in common from then on, and another one is sailed by someone who sailed
before. -/
theorem isExtendedBy_of_load_append_expedition :
    expedition.IsExtendedBy laterExpedition ∧
      (expedition.getClass ⟨2⟩).isA = [.thing] ∧
      (laterExpedition.getClass ⟨2⟩).isA =
        [.thing, .restriction (.named ⟨3⟩) .some (.expression (.named ⟨1⟩))] ∧
      expedition.assertedValues ⟨1⟩ ⟨2⟩ = [.individual ⟨2⟩] ∧
      laterExpedition.assertedValues ⟨1⟩ ⟨2⟩ = [.individual ⟨2⟩, .individual ⟨4⟩] := by
  have hlater : load {} {} "" (.sequence (expeditionStatements ++ laterStatements))
      = .ok laterExpedition := eq_ok_of_isSome (by decide +kernel)
  refine ⟨isExtendedBy_of_load_append ?_ load_expeditionDocument hlater, by decide +kernel⟩
  have hkeywords : ∀ t ∈ laterStatements,
      ((Shape.single t).toOption.map Prod.fst) ≠ some "iri" := by
    decide
  intro t ht body hbody
  exact hkeywords t ht (by rw [hbody]; rfl)

end World

end Ontology
