import Ontology.Proofs.Clashes
import Ontology.Proofs.Inverses

/-!
# Characteristics of inverses

A declared inverse stands for the relation of another property, read backwards.  The test for
clashes goes by the characteristics that each property has itself, whereas evaluation and searches
go by those of the property that a relation belongs to.  A statement that declares nothing but an
inverse makes the characteristics of both agree.  Where the declaration of a property names its
inverse, they are whatever it says, and what it says of the inverse alone is overlooked.

## Main definitions

* `World.RejectsValues`, `World.RejectsSubjects` — the test for clashes rejects several values of a
  property for a subject, or several subjects for a value.
* `World.ClosesWithValue` — for evaluation a value of a relation is the only one.
* `World.HonoursDeclarations` — a relation has the characteristics of a property that stands for it.

## Main results

* `World.rejectsValues_iff`, `World.rejectsSubjects_iff` — the test goes by the property itself.
* `World.closesWithValue_iff`, `World.searched_iff` — evaluation and searches go by the relation.
* `World.honoursDeclarations_of_declareInverse` — what an inverse is declared to be by a statement
  of its own is honoured.
* `World.honoursDeclarations_of_isLoaded` — **which declarations are honoured in a loaded
  ontology.**
* `World.functional_overlooked` — a document with a declaration that is not.
-/

namespace Ontology

namespace World

variable {w w' : World} {p : PropertyId} {r : PropertyExpression}

/-! ### The test for clashes -/

/-- The test for clashes rejects several values of a property for one subject. -/
def RejectsValues (w : World) (p : PropertyId) : Prop :=
  ∀ (I : Interpretation) s u v, ⟨s, p, u⟩ ∈ I.facts → ⟨s, p, v⟩ ∈ I.facts → u.isNothing = false →
    v.isNothing = false → u ≠ v → w.clash? I ≠ none

/-- The test for clashes rejects several subjects of a property for one individual. -/
def RejectsSubjects (w : World) (p : PropertyId) : Prop :=
  ∀ (I : Interpretation) s t o, ⟨s, p, .individual o⟩ ∈ I.facts → ⟨t, p, .individual o⟩ ∈ I.facts →
    s ≠ t → w.clash? I ≠ none

/-- Links of one property between individuals break no other rules than its own. -/
theorem noClash_of_links {I : Interpretation} (htypes : I.types = [])
    (hlink : ∀ f ∈ I.facts, f.property = p ∧ ∃ o, f.value = .individual o)
    (hvalues : (w.getProperty p).characteristics.functional = true →
      ∀ f ∈ I.facts, ∀ g ∈ I.facts, f.subject = g.subject → f.value = g.value)
    (hsubjects : (w.getProperty p).characteristics.inverseFunctional = true →
      ∀ f ∈ I.facts, ∀ g ∈ I.facts, f.value = g.value → f.subject = g.subject) : w.NoClash I where
  marked s q u v hu _ hun := by
    obtain ⟨-, o, ho⟩ := hlink _ hu
    cases ho
    cases hun
  functional s q u v hq hu hv _ _ := by
    obtain ⟨rfl, -⟩ := hlink _ hu
    exact hvalues hq _ hu _ hv rfl
  inverseFunctional s t q o hq hs ht := by
    obtain ⟨rfl, -⟩ := hlink _ hs
    exact hsubjects hq _ hs _ ht rfl
  listed i c members hi := by simp [htypes] at hi
  inhabited i c hi := by simp [htypes] at hi

/-- The test goes by what a property is declared to be itself. -/
theorem rejectsValues_iff :
    w.RejectsValues p ↔ (w.getProperty p).characteristics.functional = true := by
  constructor
  · intro hrejects
    by_contra hfunctional
    -- two values of one subject
    let f (n : Nat) : Fact := ⟨⟨0⟩, p, .individual ⟨n⟩⟩
    have hnone : w.NoClash { facts := [f 0, f 1] } :=
      noClash_of_links rfl (by simp [f]) (fun h => absurd h hfunctional) (by simp [f])
    refine hrejects { facts := [f 0, f 1] } ⟨0⟩ (.individual ⟨0⟩) (.individual ⟨1⟩) ?_ ?_ rfl rfl ?_
      (hnone.clash?_eq_none ?_)
    all_goals simp [f]
  · intro hfunctional I s u v hu hv hun hvn hne hclash
    exact hne ((noClash_of_clash? hclash).functional s p u v hfunctional hu hv hun hvn)

/-- The test goes by what a property is declared to be itself, for its subjects as well. -/
theorem rejectsSubjects_iff :
    w.RejectsSubjects p ↔ (w.getProperty p).characteristics.inverseFunctional = true := by
  constructor
  · intro hrejects
    by_contra hinverse
    -- two subjects of one value
    let f (n : Nat) : Fact := ⟨⟨n⟩, p, .individual ⟨0⟩⟩
    have hnone : w.NoClash { facts := [f 0, f 1] } :=
      noClash_of_links rfl (by simp [f]) (by simp [f]) (fun h => absurd h hinverse)
    refine hrejects { facts := [f 0, f 1] } ⟨0⟩ ⟨1⟩ ⟨0⟩ ?_ ?_ ?_ (hnone.clash?_eq_none ?_)
    all_goals simp [f]
  · intro hinverse I s t o hs ht hne hclash
    exact hne ((noClash_of_clash? hclash).inverseFunctional s t p o hinverse hs ht)

/-! ### Evaluation and searches -/

/-- For evaluation a value of a relation is the only one. -/
def ClosesWithValue (w : World) (r : PropertyExpression) : Prop :=
  ∀ (I : Interpretation) i, I.related r i ≠ [] → (w.assertedSuccessors I r i).isOpen = false

/-- Evaluation goes by the property that a relation belongs to. -/
theorem closesWithValue_iff : w.ClosesWithValue r ↔ w.isFunctional r = true := by
  constructor
  · intro hcloses
    -- a single fact, without a marker
    let I : Interpretation := { facts := [⟨⟨0⟩, r.property, .individual ⟨0⟩⟩] }
    have hrelated : I.related r ⟨0⟩ ≠ [] := by
      cases r <;> simp [I, Interpretation.related, Interpretation.values, Interpretation.subjects,
        Value.isNothing, PropertyExpression.property]
    have hincomplete : w.isComplete I r ⟨0⟩ = false := by
      simp only [isComplete, Interpretation.isClosed, List.any_eq_false]
      intro p _ hmarked
      obtain ⟨v, hv, hnothing⟩ := List.any_eq_true.mp hmarked
      cases List.mem_singleton.mp (Interpretation.mem_values.mp hv)
      cases hnothing
    have hclosed := hcloses I ⟨0⟩ hrelated
    simpa [assertedSuccessors, hincomplete, hrelated] using hclosed
  · intro hfunctional I i hrelated
    simp [assertedSuccessors, hfunctional, hrelated]

/-- A search goes by the property that a relation belongs to. -/
theorem searched_iff {cs : List Constraint} :
    r ∈ w.searchedRelations cs ∨ r.reversed ∈ w.searchedRelations cs ↔
      ((w.getProperty r.property).kind = .object ∧ r.property ∈ w.propertyIds ∧
        ∃ c ∈ cs, r.property ∈ c.reads) ∧
        (w.isFunctional r = true ∨ w.isFunctional r.reversed = true) := by
  rw [mem_searchedRelations, mem_searchedRelations]
  cases r with
  | named p =>
    simp only [PropertyExpression.property, PropertyExpression.reversed, searchedRelation?,
      isFunctional]
    grind
  | inverse p =>
    simp only [PropertyExpression.property, PropertyExpression.reversed, searchedRelation?,
      isFunctional]
    grind

/-! ### Declarations -/

/-- A relation has the characteristics of a property that stands for it. -/
structure HonoursDeclarations (w : World) (p : PropertyId) : Prop where
  functional : (w.getProperty p).characteristics.functional = true →
    w.isFunctional (w.relation (.named p)) = true
  inverseFunctional : (w.getProperty p).characteristics.inverseFunctional = true →
    w.isFunctional (w.relation (.inverse p)) = true

namespace OlderInverses

/-- A property that is no inverse stands for itself. -/
theorem honoursDeclarations_of_none (hp : (w.getProperty p).inverseOf = none) :
    w.HonoursDeclarations p := by
  have hbase : w.baseRelation p = .named p := by rw [baseRelation, hp]
  constructor
  · intro h
    rw [relation, hbase]
    exact h
  · intro h
    rw [relation, hbase]
    exact h

/-- The declarations of an inverse are honoured if they are those of the other property, turned
around. -/
theorem honoursDeclarations_iff (hw : w.OlderInverses) : w.HonoursDeclarations p ↔
    ∀ q, (w.getProperty p).inverseOf = some q →
      ((w.getProperty p).characteristics.functional = true →
        (w.getProperty q).characteristics.inverseFunctional = true) ∧
      ((w.getProperty p).characteristics.inverseFunctional = true →
        (w.getProperty q).characteristics.functional = true) := by
  cases hp : (w.getProperty p).inverseOf with
  | none => exact iff_of_true (honoursDeclarations_of_none hp) (by simp)
  | some q =>
    have hbase : w.baseRelation p = .inverse q := hw.baseRelation_eq_inverse hp
    have hback : w.relation (.inverse p) = .named q := by rw [relation, hbase]; rfl
    constructor
    · intro h q' hq'
      cases hq'
      refine ⟨fun hf => ?_, fun hf => ?_⟩
      · have hfunctional := h.functional hf
        rw [relation, hbase] at hfunctional
        exact hfunctional
      · have hfunctional := h.inverseFunctional hf
        rw [hback] at hfunctional
        exact hfunctional
    · intro h
      obtain ⟨hfunctional, hinverse⟩ := h q rfl
      constructor
      · rw [relation, hbase]
        exact hfunctional
      · rw [hback]
        exact hinverse

end OlderInverses

/-! ### Inverses with a statement of their own -/

/-- A property stays as it was declared. -/
theorem Adds.property? (h : w.Adds w') {d : Property} (hd : w.property? p = some d) :
    w'.property? p = some d := by
  rcases h.properties with ⟨hproperties, -⟩ | ⟨new, hproperties, -⟩
  · rw [World.property?, hproperties]
    exact hd
  · obtain ⟨hlt, hplace⟩ := Array.getElem?_eq_some_iff.mp hd
    rw [World.property?, hproperties, Array.getElem?_push_lt hlt, hplace]

theorem GrowsTo.property? (h : w.GrowsTo w') {d : Property} (hd : w.property? p = some d) :
    w'.property? p = some d := by
  induction h with
  | refl => exact hd
  | tail _ hadds ih => exact hadds.property? ih

/-- A new property is put behind the others as it is declared, but for an empty IRI. -/
theorem property?_of_addProperty {d : Property} {id : PropertyId}
    (h : w.addProperty d = .ok (w', id)) :
    w'.property? ⟨w.properties.size⟩ = some { d with iri := w.iriOr d.iri d.name } := by
  obtain ⟨names, -, h⟩ := exists_of_bind_eq_ok h
  obtain ⟨rfl, -⟩ := Prod.mk.inj (Except.ok.inj h)
  exact Array.getElem?_push_size

/-- A statement that declares an inverse puts it behind the other properties, with the
characteristics of the property that it names, turned around. -/
theorem property?_of_declareInverse {s s' : LoadSession} {t : Tree}
    (h : s.declareInverse t = .ok s') :
    ∃ d q, s'.world.property? ⟨s.world.properties.size⟩ = some d ∧
      d.inverseOf = some q ∧ d.characteristics = (s.world.getProperty q).characteristics.inverted ∧
      ∃ name, s.world.lookup? name = some (.property q) := by
  obtain ⟨d, inner, body, p, s₁, hdeclares, ⟨htyped, hknown⟩,
    ⟨q, hq, hcharacteristics, hname⟩, hadd, hfacts, -, hends⟩ :=
    LoadSession.declareInverse_eq_ok h
  have hadded : s.LeadsTo [] s₁ ∧ s₁.world.Has (.property p) := by
    refine LoadSession.leadsTo_addProperty (fun r hr => .inl (hknown r hr)) htyped
      (fun r hr => ?_) hends hadd
    rw [hq] at hr
    rw [← Option.some.inj hr]
    exact hname
  have hbody : s₁.world.KnowsBody body :=
    hadded.1.isExtendedBy.knowsBody (knowsBody_of_readKeywords hdeclares.read)
  have hrest : s₁.LeadsTo [] s' := LoadSession.leadsTo_applyFacts (.inl hadded.2) hbody hfacts
  obtain ⟨⟨world, id⟩, hnew, hs₁⟩ := exists_of_bind_eq_ok hadd
  obtain ⟨rfl, rfl⟩ := Prod.mk.inj (Except.ok.inj hs₁)
  have hplace := property?_of_addProperty (LoadSession.ok_of_ofNames hnew)
  -- the facts that follow leave the properties as they are
  exact ⟨_, q, hrest.isExtendedBy.properties _ _ hplace, hq, hcharacteristics, hname⟩

/-- What an inverse is declared to be by a statement of its own is honoured. -/
theorem honoursDeclarations_of_declareInverse {iri : String} {s s' : LoadSession} {t : Tree}
    (hs : GrowsTo { iri } s.world) (h : s.declareInverse t = .ok s') (hs' : s'.world.GrowsTo w) :
    w.HonoursDeclarations ⟨s.world.properties.size⟩ := by
  have hsteps : s.LeadsTo [] s' := LoadSession.leadsTo_declareInverse h
  have hgrows : s.world.GrowsTo w := hsteps.growsTo.trans hs'
  have hsession : s.world.OlderInverses := (OlderInverses.empty iri).growsTo hs
  obtain ⟨d, q, hd, hinverse, hcharacteristics, name, hname⟩ := property?_of_declareInverse h
  have hd : w.getProperty ⟨s.world.properties.size⟩ = d := World.getProperty_eq (hs'.property? hd)
  -- the named property was there before
  have hlt : q.index < s.world.properties.size :=
    hsession.named name q (get?_of_lookup? hname (by simp))
  have hq : w.getProperty q = s.world.getProperty q := by
    have hplace : s.world.property? q = some s.world.properties[q.index] :=
      Array.getElem?_eq_getElem hlt
    rw [getProperty, getProperty, hgrows.property? hplace, hplace]
  refine (hsession.growsTo hgrows).honoursDeclarations_iff.mpr fun q' hq' => ?_
  rw [hd, hinverse] at hq'
  cases hq'
  rw [hd, hq, hcharacteristics]
  exact ⟨id, id⟩

/-! ### Loaded ontologies -/

/-- **Which declarations are honoured in a loaded ontology.**  The declarations of a property are
honoured if it is no inverse, if it is declared by a statement for inverses, and otherwise if and
only if the property that it names as its inverse has the same ones, turned around.  The test for
clashes goes by the declarations themselves, while a value closes a relation, and a search decides
it, only where they are honoured. -/
theorem honoursDeclarations_of_isLoaded (h : w.IsLoaded) :
    (∀ p, w.HonoursDeclarations p ↔ ∀ q, (w.getProperty p).inverseOf = some q →
      ((w.getProperty p).characteristics.functional = true →
        (w.getProperty q).characteristics.inverseFunctional = true) ∧
      ((w.getProperty p).characteristics.inverseFunctional = true →
        (w.getProperty q).characteristics.functional = true)) ∧
    (∀ iri (s s' : LoadSession) t, GrowsTo { iri } s.world → s.declareInverse t = .ok s' →
      s'.world.GrowsTo w → w.HonoursDeclarations ⟨s.world.properties.size⟩) ∧
    (∀ p, (w.RejectsValues p ↔ (w.getProperty p).characteristics.functional = true) ∧
      (w.RejectsSubjects p ↔ (w.getProperty p).characteristics.inverseFunctional = true)) ∧
    (∀ r, w.ClosesWithValue r ↔ w.isFunctional r = true) ∧
    ∀ I r, r ∈ (w.searchProblem I).searched ∨ r.reversed ∈ (w.searchProblem I).searched ↔
      ((w.getProperty r.property).kind = .object ∧ r.property ∈ w.propertyIds ∧
        ∃ c ∈ w.constraints I, r.property ∈ c.reads) ∧
        (w.isFunctional r = true ∨ w.isFunctional r.reversed = true) :=
  ⟨fun _ => h.olderInverses.honoursDeclarations_iff,
    fun _ _ _ _ => honoursDeclarations_of_declareInverse,
    fun _ => ⟨rejectsValues_iff, rejectsSubjects_iff⟩,
    fun _ => closesWithValue_iff,
    fun _ _ => searched_iff⟩

/-! ### A functional inverse -/

/-- Houses are right to visitors.  The declaration of the inverse says that a visitor is left to one
house only, which is known of one visitor and has to be searched for the other one. -/
def visitsDocument : Tree :=
  .sequence [
    .object [("owl_class", .object [("House", .null)])],
    .object [("owl_class", .object [("Visitor", .null)])],
    .object [("owl_multiple_individuals", .object [
      ("names", .sequence [.string "h1", .string "h2"]),
      ("types", .sequence [.string "House"])])],
    .object [("owl_multiple_individuals", .object [
      ("names", .sequence [.string "x", .string "y"]),
      ("types", .sequence [.string "Visitor"])])],
    .object [("owl_object_property", .object [("right_to", .object [
      ("Domain", .string "House"),
      ("Range", .string "Visitor")])])],
    .object [("owl_object_property", .object [("left_to", .object [
      ("Domain", .string "Visitor"),
      ("Range", .string "House"),
      ("Characteristics", .sequence [.string "Functional"]),
      ("Inverse", .string "right_to"),
      ("Facts", .sequence [.object [("x", .string "h1")]])])])],
    .object [("restriction", .object [("Subject", .string "y"),
      ("Body", .object [("left_to", .object [("some", .string "House")])])])]]

/-- The ontology of the document. -/
def visits : World :=
  (load {} {} "" visitsDocument).toOption.getD default

theorem load_visitsDocument : load {} {} "" visitsDocument = .ok visits :=
  eq_ok_of_isSome (by decide +kernel)

theorem isLoaded_visits : visits.IsLoaded :=
  ⟨_, _, _, _, load_visitsDocument⟩

/-- What the inverse says of itself is not honoured, although the test for clashes goes by it. -/
theorem honoursDeclarations_of_isLoaded_visits :
    visits.HonoursDeclarations ⟨0⟩ ∧ ¬visits.HonoursDeclarations ⟨1⟩ ∧
      visits.RejectsValues ⟨1⟩ ∧ ¬visits.ClosesWithValue (visits.relation (.named ⟨1⟩)) := by
  obtain ⟨hhonours, -, hrejects, hcloses, -⟩ := honoursDeclarations_of_isLoaded isLoaded_visits
  have hinverse : (visits.getProperty ⟨1⟩).inverseOf = some ⟨0⟩ := by decide +kernel
  have hfunctional : (visits.getProperty ⟨1⟩).characteristics.functional = true := by decide +kernel
  refine ⟨(hhonours ⟨0⟩).mpr ?_, fun h => ?_, (hrejects ⟨1⟩).1.mpr hfunctional, fun h => ?_⟩
  · have hnone : (visits.getProperty ⟨0⟩).inverseOf = none := by decide +kernel
    simp [hnone]
  · have hother : (visits.getProperty ⟨0⟩).characteristics.inverseFunctional = true :=
      ((hhonours ⟨1⟩).mp h ⟨0⟩ hinverse).1 hfunctional
    revert hother
    decide +kernel
  · have hother : visits.isFunctional (visits.relation (.named ⟨1⟩)) = true := (hcloses _).mp h
    revert hother
    decide +kernel

/-- **A functional inverse is overlooked.**  The test for clashes rejects two values of it.  But
that one house is known does not exclude the other one, and the house that has to be there is not
searched. -/
theorem functional_overlooked :
    load {} {} "" visitsDocument = .ok visits ∧
      (visits.getProperty ⟨1⟩).characteristics.functional = true ∧
      visits.isFunctional (visits.relation (.named ⟨1⟩)) = false ∧
      visits.clash? { facts := [⟨⟨2⟩, ⟨1⟩, .individual ⟨0⟩⟩, ⟨⟨2⟩, ⟨1⟩, .individual ⟨1⟩⟩] }
        = some (.severalValues ⟨2⟩ ⟨1⟩ 2) ∧
      ((visits.saturate 64 visits.interpretation).map fun s =>
        ((visits.assertedView s.interpretation).member
          (.restriction (.named ⟨1⟩) .value (.individual ⟨1⟩)) ⟨2⟩,
        (visits.searchProblem s.interpretation).searched)) = .ok (.unknown, []) :=
  ⟨load_visitsDocument, by decide +kernel, by decide +kernel, by decide +kernel, by decide +kernel⟩

end World

end Ontology
