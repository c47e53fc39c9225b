import Ontology.Proofs.Grounded

/-!
# Stated values in a loaded ontology

Values are stated by facts and by entries about relations.  A fact checks its value against the
property and respects that a property is functional.  An entry does neither: it only asks for a
range that begins with a class, which makes its own individual a value of the right kind, and it
always adds a value.  So the values of a loaded ontology are of the right kind, but a functional
property can have several of them, one for each entry.

## Main definitions

* `World.IsWellTyped` — properties and values are of the right kind.
* `World.IsSingleValued` — a functional property has one value at most, unless entries come with its
  name.

## Main results

* `LoadSession.Step.isWellTyped`, `LoadSession.Step.isSingleValued` — what a step preserves.
* `World.typed_of_isLoaded` — **the values of a loaded ontology are of the right kind.**
* `LoadSession.assertedValues_applyEntries` — entries add a value each, whatever the property is.
* `World.length_assertedValues_of_load` — **where a functional property has one value at most.**
* `World.several_values_functional` — a document whose functional property has two values.
-/

namespace Ontology

namespace World

variable {w w' : World} {i : IndividualId} {p : PropertyId} {v : Value}

theorem assertedValues_of_individual? {d : Individual} (h : w.individual? i = some d)
    (p : PropertyId) : w.assertedValues i p = d.facts.get p := by
  rw [assertedValues, getIndividual_eq h]

/-- Values refer to their property and to what they are. -/
theorem references_of_mem_assertedValues (hv : v ∈ w.assertedValues i p) :
    .property p ∈ w.references ∧ v.references ⊆ w.references :=
  references_of_assertions (.inl rfl) hv

/-- A property with values is there. -/
theorem IsGrounded.has_of_mem_assertedValues (hw : w.IsGrounded) (hv : v ∈ w.assertedValues i p) :
    w.Has (.property p) :=
  hw.references _ (references_of_mem_assertedValues hv).1

/-! ### Kinds of values -/

/-- Properties and their values are of the right kind. -/
structure IsWellTyped (w : World) : Prop where
  properties : ∀ p d, w.property? p = some d → d.IsTyped
  values : ∀ i p v, v ∈ w.assertedValues i p → w.Takes p v

theorem isWellTyped_new (iri : String) : IsWellTyped { iri } where
  properties p d h := by cases h
  values i p v h := absurd h List.not_mem_nil

theorem IsWellTyped.getProperty (hw : w.IsWellTyped) (p : PropertyId) :
    (w.getProperty p).IsTyped := by
  rw [World.getProperty]
  cases hd : w.property? p with
  | none => exact ⟨by simp, by simp⟩
  | some d => exact hw.properties p d hd

/-- A range that begins with a class is that of an object property, which takes individuals. -/
theorem takes_of_permits {x : Write} (hp : (w.getProperty x.property).IsTyped)
    (h : w.Permits x) : w.Takes x.property x.value := by
  cases x with
  | assign i p v => exact h.2
  | append i p v => exact h.2
  | enter i p e =>
    obtain ⟨c, hc⟩ := h
    have hkind : (w.getProperty p).kind = .object := by
      refine hp.object.mpr ?_
      rw [Property.rangeClasses] at hc
      split at hc
      · next classes hclasses => exact ⟨classes, hclasses⟩
      · cases hc
    change w.Takes p (.individual e)
    rw [Takes, hkind]
    exact .inl ⟨e, rfl⟩

/-- What a property takes depends on its declaration only. -/
theorem takes_congr (h : w'.getProperty p = w.getProperty p) : w'.Takes p v ↔ w.Takes p v := by
  rw [Takes, h, Takes]

theorem getProperty_write (w : World) (x : Write) (p : PropertyId) :
    (w.write x).getProperty p = w.getProperty p := by
  rw [write_eq]
  rfl

theorem mem_assertedValues_write {x : Write} (h : v ∈ (w.write x).assertedValues i p) :
    v ∈ w.assertedValues i p ∨ p = x.property ∧ v = x.value := by
  rw [assertedValues_write] at h
  split at h
  · next hx => exact (Write.mem_valuesAfter h).imp_right fun h => ⟨hx.2.2, h⟩
  · exact .inl h

/-! ### Numbers of values -/

/-- A functional property has one value at most, unless the names of some pair stand for the
individual and the property. -/
def IsSingleValued (w : World) (names : List (String × String)) : Prop :=
  ∀ i p, (w.getProperty p).characteristics.functional = true → ¬w.IsNamedIn names i p →
    (w.assertedValues i p).length ≤ 1

end World

namespace LoadSession

open World

variable {names : List (String × String)} {s s' : LoadSession}

/-- A step writes a value or leaves the stated values as they were. -/
theorem Step.assertedValues (h : s.Step names s') :
    (∃ x, s'.world = s.world.write x ∧ s.world.Permits x ∧
      ∀ i p e, x = .enter i p e → s.world.IsNamedIn names i p) ∨
    ∀ i p, s'.world.assertedValues i p = s.world.assertedValues i p := by
  cases h with
  | add ha h =>
    refine .inr fun i p => ?_
    rcases Addition.perform_eq_ok h with ⟨-, rfl⟩ | ⟨name, e, table, -, -, rfl⟩
    · exact assertedValues_put _ _ i p
    · exact assertedValues_put _ _ i p
  | @individualAxiom j r _ =>
    refine .inr fun i p => ?_
    change (s.world.addIndividualAxiom j r.toExpression).assertedValues i p = _
    rw [World.assertedValues, addIndividualAxiom, getIndividual_modifyIndividual]
    split <;> rfl
  | @write x hpermits hknown hentry => exact .inl ⟨x, rfl, hpermits, hentry⟩
  | _ => exact .inr fun _ _ => rfl

/-- A step keeps the values of the right kind. -/
theorem Step.isWellTyped (h : s.Step names s') (hs : s.IsGrounded) (hw : s.world.IsWellTyped) :
    s'.world.IsWellTyped := by
  have hkeep := h.isExtendedBy
  constructor
  · intro p d hd
    by_cases hp : s.world.Has (.property p)
    · obtain ⟨d₀, hd₀⟩ := has_property_iff.mp hp
      rw [hkeep.properties p d₀ hd₀] at hd
      exact hw.properties p d (Option.some.inj hd ▸ hd₀)
    · obtain ⟨q, iri, hadmits, rfl⟩ := h.property_new hd hp
      exact ⟨(hadmits.typed q rfl).object, (hadmits.typed q rfl).data⟩
  · -- an old value belongs to a property that was there before
    have hold : ∀ i p v, v ∈ s.world.assertedValues i p → s'.world.Takes p v := by
      intro i p v hv
      have hp := hs.world.has_of_mem_assertedValues hv
      exact (takes_congr (hkeep.getProperty hp)).mpr (hw.values i p v hv)
    intro i p v hv
    rcases h.assertedValues with ⟨x, hx, hpermits, -⟩ | hsame
    · rw [hx] at hv
      rcases mem_assertedValues_write hv with hv | ⟨rfl, rfl⟩
      · exact hold i p v hv
      · rw [hx, takes_congr (getProperty_write _ x _)]
        exact takes_of_permits (hw.getProperty _) hpermits
    · rw [hsame] at hv
      exact hold i p v hv

theorem LeadsTo.isWellTyped (h : s.LeadsTo names s') (hs : s.IsGrounded)
    (hw : s.world.IsWellTyped) : s'.world.IsWellTyped := by
  induction h with
  | refl => exact hw
  | tail hsteps hstep ih => exact hstep.isWellTyped (LeadsTo.isGrounded hsteps hs) ih

/-- A step adds a second value of a functional property only for an entry. -/
theorem Step.isSingleValued (h : s.Step names s') (hs : s.IsGrounded)
    (hw : s.world.IsSingleValued names) : s'.world.IsSingleValued names := by
  have hkeep := h.isExtendedBy
  intro i p hfunctional hnames
  have hbefore : ¬s.world.IsNamedIn names i p := fun hnamed => hnames (hnamed.mono hkeep)
  rcases h.assertedValues with ⟨x, hx, hpermits, hentry⟩ | hsame
  · rw [hx, getProperty_write] at hfunctional
    rw [hx, assertedValues_write]
    split
    · next hi =>
      obtain ⟨rfl, -, rfl⟩ := hi
      cases x with
      | assign j q v => exact Nat.le_refl 1
      | append j q v => exact absurd (hfunctional.symm.trans hpermits.1) (by decide)
      | enter j q e => exact absurd (hentry j q e rfl) hbefore
    · exact hw i p hfunctional hbefore
  · rw [hsame]
    cases hvalues : s.world.assertedValues i p with
    | nil => exact Nat.zero_le 1
    | cons v rest =>
      -- the property was there before
      have hp := hs.world.has_of_mem_assertedValues (hvalues ▸ List.mem_cons_self)
      rw [hkeep.getProperty hp] at hfunctional
      rw [← hvalues]
      exact hw i p hfunctional hbefore

theorem LeadsTo.isSingleValued (h : s.LeadsTo names s') (hs : s.IsGrounded)
    (hw : s.world.IsSingleValued names) : s'.world.IsSingleValued names := by
  induction h with
  | refl => exact hw
  | tail hsteps hstep ih => exact hstep.isSingleValued (LeadsTo.isGrounded hsteps hs) ih

/-! ### Entries -/

/-- Values that are added leave all other individuals as they were. -/
theorem individual?_pushFacts {p : PropertyId} {i j : IndividualId} (hij : i ≠ j) (vs : List Value)
    (w : World) : (vs.foldl (fun w v => w.pushFact i p v) w).individual? j = w.individual? j := by
  induction vs generalizing w with
  | nil => rfl
  | cons v rest ih =>
    rw [List.foldl_cons, ih]
    exact individual?_write_of_ne (x := .append i p v) hij

/-- A fact leaves all other individuals as they were. -/
theorem individual?_applyFact {p : PropertyId} {i j : IndividualId} {value : PairValue}
    (h : s.applyFact p i value = .ok s') (hij : i ≠ j) :
    s'.world.individual? j = s.world.individual? j := by
  obtain ⟨vs, -, h⟩ := exists_of_bind_eq_ok h
  split at h
  · split at h
    · next _ v _ =>
      rw [← Except.ok.inj h]
      exact individual?_write_of_ne (x := .assign i p v) hij
    · simp at h
  · rw [← Except.ok.inj h]
    exact individual?_pushFacts hij vs s.world

/-- The roles of an entry leave all other individuals as they were. -/
theorem individual?_applyRoles {e i : IndividualId} {roles : List (Term × PairValue)}
    (h : roles.foldlM (fun s (role, value) => s.applyRole e role value) s = .ok s')
    (hi : e ≠ i) : s'.world.individual? i = s.world.individual? i := by
  refine rel_of_foldlM
    (R := fun s₁ s₂ : LoadSession => s₂.world.individual? i = s₁.world.individual? i) (fun _ => rfl)
    (fun _ _ _ h h' => h'.trans h) (fun pair _ s₁ s₂ _ h => ?_) h
  obtain ⟨role, value⟩ := pair
  dsimp only at h
  rw [applyRole] at h
  split at h
  · split at h
    · simp at h
    · exact individual?_applyFact h hi
  · simp at h

/-- An entry adds its individual to the values of the subject. -/
theorem individual?_applyEntry {i : IndividualId} {p : PropertyId} {concept : ClassId} {n : Node}
    {d : Individual} (hd : s.world.individual? i = some d)
    (h : s.applyEntry i p concept n = .ok s') :
    ∃ e, s'.world.individual? i = some { d with facts := d.facts.push p (.individual e) } := by
  cases n with
  | pairs roles =>
    obtain ⟨⟨s₁, e⟩, hentry, h⟩ := exists_of_bind_eq_ok h
    obtain ⟨⟨s₂, e'⟩, hadd, hentry⟩ := exists_of_bind_eq_ok hentry
    obtain ⟨rfl, rfl⟩ := Prod.mk.inj (Except.ok.inj hentry)
    obtain ⟨hperform, -⟩ := perform_of_addIndividual hadd
    have hi : s.world.Has (.individual i) := has_individual_iff.mpr ⟨d, hd⟩
    -- the individual of the entry is new, so its roles leave the subject as it is
    have hne : e' ≠ i := by
      rintro rfl
      exact (hasEntry_of_perform hperform).2 hi
    obtain ⟨_, names, hentry, hput⟩ := declaration?_of_perform hperform
    have hd₂ : s₂.world.individual? i = some d := by
      rw [hput]
      exact getElem?_push_of_eq_some hd _
    refine ⟨e', ?_⟩
    rw [individual?_applyRoles h hne]
    have hd₂ : s₂.world.individuals[i.index]? = some d := hd₂
    simp only [individual?, pushFact, modifyIndividual, Array.getElem?_modify, hd₂, if_true,
      Option.map_some]
  | _ => simp [applyEntry] at h

/-- A list of entries adds a value each, whatever has been stated about the subject by then. -/
theorem assertedValues_foldlM_applyEntry {i : IndividualId} {p : PropertyId} {concept : ClassId}
    {items : List Node} {d : Individual} (hd : s.world.individual? i = some d)
    (h : items.foldlM (fun s n => s.applyEntry i p concept n) s = .ok s') :
    ∃ es : List IndividualId, es.length = items.length ∧
      s'.world.assertedValues i p = d.facts.get p ++ es.map .individual := by
  induction items generalizing s d with
  | nil =>
    rw [List.foldlM_nil] at h
    rw [← Except.ok.inj h, assertedValues_of_individual? hd]
    exact ⟨[], rfl, (List.append_nil _).symm⟩
  | cons n rest ih =>
    rw [List.foldlM_cons] at h
    obtain ⟨mid, hmid, h⟩ := exists_of_bind_eq_ok h
    obtain ⟨e, he⟩ := individual?_applyEntry hd hmid
    obtain ⟨es, hlength, hvalues⟩ := ih he h
    refine ⟨e :: es, by rw [List.length_cons, hlength, List.length_cons], ?_⟩
    rw [hvalues, Assertions.get_push, if_pos rfl, List.append_assoc, List.map_cons,
      List.singleton_append]

/-- Entries add a value each, whatever the property is. -/
theorem assertedValues_applyEntries {i : IndividualId} {role : Term} {p : PropertyId} {n : Node}
    (hi : s.world.Has (.individual i)) (hp : role.entity? = some (.property p))
    (h : s.applyEntries i role n = .ok s') :
    ∃ es : List IndividualId, es.length = n.items.length ∧
      s'.world.assertedValues i p = s.world.assertedValues i p ++ es.map .individual := by
  obtain ⟨d, hd⟩ := has_individual_iff.mp hi
  rw [applyEntries, hp] at h
  dsimp only at h
  split at h
  · rw [assertedValues_of_individual? hd]
    exact assertedValues_foldlM_applyEntry hd h
  · simp at h

end LoadSession

/-! ### Loaded ontologies -/

namespace World

variable {w : World}

/-- A runner has one leg and one coach.  Facts state two coaches, one after the other, and two
entries state a leg each, although there are no relation concepts at all. -/
def relayDocument : Tree :=
  .sequence [
    .object [("owl_class", .object [("Runner", .null)])],
    .object [("owl_class", .object [("Leg", .null)])],
    .object [("owl_multiple_individuals", .object [
      ("names", .sequence [.string "kim", .string "pat", .string "sam"]),
      ("types", .sequence [.string "Runner"])])],
    .object [("owl_object_property", .object [("runs", .object [
      ("Domain", .string "Runner"),
      ("Range", .string "Leg"),
      ("Characteristics", .sequence [.string "Functional"])])])],
    .object [("owl_object_property", .object [("trained_by", .object [
      ("Domain", .string "Runner"),
      ("Range", .string "Runner"),
      ("Characteristics", .sequence [.string "Functional"]),
      ("Facts", .sequence [.object [("kim", .string "pat")],
        .object [("kim", .string "sam")]])])])],
    .object [("owl_data_property", .object [("metres", .object [
      ("Domain", .string "Leg"),
      ("Range", .string "int")])])],
    .object [("relation_concept_facts", .object [("kim", .object [("runs", .sequence [
      .object [("metres", .int 400)],
      .object [("metres", .int 200)]])])])]]

/-- The ontology of the document. -/
def relay : World :=
  (load {} {} "" relayDocument).toOption.getD default

theorem load_relayDocument : load {} {} "" relayDocument = .ok relay :=
  eq_ok_of_isSome (by decide +kernel)

/-- **The values of a loaded ontology are of the right kind.**  The range of an object property
consists of class expressions, and its values are individuals, named classes, `owl:Thing` and
`owl:Nothing`.  The range of a data property consists of datatypes, of which there is one at least,
and its values are literals that one of them accepts. -/
theorem typed_of_isLoaded (h : w.IsLoaded) :
    (∀ p d, w.property? p = some d →
      (d.kind = .object ↔ ∃ classes, d.range = .classes classes) ∧
      (d.kind = .data ↔ ∃ datatypes, datatypes ≠ [] ∧ d.range = .datatypes datatypes)) ∧
    ∀ i p v, v ∈ w.assertedValues i p →
      ((w.getProperty p).kind = .object →
        (∃ j, v = .individual j) ∨ (∃ c, v = .expression (.named c)) ∨
          v = .expression .thing ∨ v = .expression .nothing) ∧
      ((w.getProperty p).kind = .data →
        ∃ l datatypes, v = .literal l ∧ (w.getProperty p).range = .datatypes datatypes ∧
          ∃ d ∈ datatypes, d.accepts l = true) := by
  obtain ⟨settings, folder, base, document, h⟩ := h
  obtain ⟨iri, s, rfl, hs⟩ := leadsTo_of_load h
  have hw : s.world.IsWellTyped :=
    hs.isWellTyped (LoadSession.isGrounded_new iri settings folder base) (isWellTyped_new iri)
  refine ⟨fun p d hd => ⟨(hw.properties p d hd).object, (hw.properties p d hd).data⟩,
    fun i p v hv => ⟨fun hkind => ?_, fun hkind => ?_⟩⟩
  · have htakes := hw.values i p v hv
    rw [Takes, hkind] at htakes
    exact htakes
  · have htakes := hw.values i p v hv
    rw [Takes, hkind] at htakes
    obtain ⟨l, rfl, haccepts⟩ := htakes
    obtain ⟨datatypes, hne, hrange⟩ := (hw.getProperty p).data.mp hkind
    rw [hrange, PropertyRange.accepts, Bool.or_eq_true, List.isEmpty_iff, List.any_eq_true]
      at haccepts
    exact ⟨l, datatypes, rfl, hrange, haccepts.resolve_left hne⟩

/-- The session that ends with the document. -/
def relaySession : LoadSession :=
  { world := relay, concepts.created := [⟨1⟩, ⟨1⟩] }

/-- The legs are individuals, and their lengths are integers. -/
theorem typed_of_isLoaded_relay :
    (∃ j, relay.assertedValues ⟨0⟩ ⟨0⟩ = [.individual ⟨3⟩, j] ∧
      ((∃ k, j = .individual k) ∨ (∃ c, j = .expression (.named c)) ∨ j = .expression .thing ∨
        j = .expression .nothing)) ∧
    ∃ v, relay.assertedValues ⟨3⟩ ⟨2⟩ = [v] ∧ ∃ l datatypes, v = .literal l ∧
      (relay.getProperty ⟨2⟩).range = .datatypes datatypes ∧
        ∃ d ∈ datatypes, d.accepts l = true := by
  obtain ⟨-, hvalues⟩ := typed_of_isLoaded ⟨_, _, _, _, load_relayDocument⟩
  obtain ⟨hlegs, hmetres, hobject, hdata⟩ :
      relay.assertedValues ⟨0⟩ ⟨0⟩ = [.individual ⟨3⟩, .individual ⟨4⟩] ∧
        relay.assertedValues ⟨3⟩ ⟨2⟩ = [.literal (.int 400)] ∧
        (relay.getProperty ⟨0⟩).kind = .object ∧ (relay.getProperty ⟨2⟩).kind = .data := by
    decide +kernel
  refine ⟨⟨_, hlegs, (hvalues ⟨0⟩ ⟨0⟩ _ ?_).1 hobject⟩, _, hmetres, (hvalues ⟨3⟩ ⟨2⟩ _ ?_).2 hdata⟩
  · rw [hlegs]
    exact List.mem_cons_of_mem _ List.mem_cons_self
  · rw [hmetres]
    exact List.mem_cons_self

/-- **Where a functional property has one value at most.**  Facts keep to it, so in a loaded
ontology a functional property has several values of an individual only if entries of the document
come with the names of both.  Entries do not keep to it: they add a value each, whatever the
property is. -/
theorem length_assertedValues_of_load {settings : LoadSettings} {folder : Folder} {base : String}
    {document : Tree} (h : load settings folder base document = .ok w) :
    (∀ i p, (w.getProperty p).characteristics.functional = true →
      ¬w.IsNamedIn document.entryNames i p → (w.assertedValues i p).length ≤ 1) ∧
    ∀ (s s' : LoadSession) i role p n, s.world.Has (.individual i) →
      role.entity? = some (.property p) → s.applyEntries i role n = .ok s' →
      (s'.world.assertedValues i p).length =
        (s.world.assertedValues i p).length + n.items.length := by
  obtain ⟨iri, s, rfl, hs⟩ := leadsTo_of_load h
  refine ⟨hs.isSingleValued (LoadSession.isGrounded_new iri settings folder base)
    fun _ _ _ _ => Nat.zero_le 1, fun s s' i role p n hi hp h => ?_⟩
  obtain ⟨es, hlength, hvalues⟩ := LoadSession.assertedValues_applyEntries hi hp h
  rw [hvalues, List.length_append, List.length_map, hlength]

/-- The runner keeps the coach that is stated last, while another entry makes for a third leg. -/
theorem length_assertedValues_of_load_relay :
    (relay.assertedValues ⟨0⟩ ⟨1⟩).length ≤ 1 ∧
      relay.assertedValues ⟨0⟩ ⟨1⟩ = [.individual ⟨2⟩] ∧
      ∃ s', relaySession.applyEntries ⟨0⟩ (.entity "runs" (.property ⟨0⟩)) (.pairs []) = .ok s' ∧
        (s'.world.assertedValues ⟨0⟩ ⟨0⟩).length =
          (relaySession.world.assertedValues ⟨0⟩ ⟨0⟩).length + 1 := by
  obtain ⟨hfacts, hentries⟩ := length_assertedValues_of_load load_relayDocument
  obtain ⟨hfunctional, hcoach, hrole, hrunner⟩ :
      (relay.getProperty ⟨1⟩).characteristics.functional = true ∧
        relay.assertedValues ⟨0⟩ ⟨1⟩ = [.individual ⟨2⟩] ∧
        relay.propertyNamed? "runs" = some ⟨0⟩ ∧ 0 < relaySession.world.individuals.size := by
    decide +kernel
  have hnames : relayDocument.entryNames = [("kim", "runs")] := by decide +kernel
  refine ⟨hfacts ⟨0⟩ ⟨1⟩ hfunctional ?_, hcoach, ?_⟩
  · rintro ⟨subject, role, hmem, -, hnamed⟩
    rw [hnames, List.mem_singleton] at hmem
    rw [(Prod.mk.inj hmem).2, hrole] at hnamed
    cases hnamed
  · obtain ⟨s', hs'⟩ : ∃ s', relaySession.applyEntries ⟨0⟩ (.entity "runs" (.property ⟨0⟩))
        (.pairs []) = .ok s' := ⟨_, eq_ok_of_isSome (by decide +kernel)⟩
    have hlength := hentries relaySession s' ⟨0⟩ (.entity "runs" (.property ⟨0⟩)) ⟨0⟩ (.pairs [])
      hrunner rfl hs'
    have hone : (Node.pairs []).items.length = 1 := rfl
    rw [hone] at hlength
    exact ⟨s', hs', hlength⟩

/-- **A functional property with two values.** -/
theorem several_values_functional :
    load {} {} "" relayDocument = .ok relay ∧
      (relay.getProperty ⟨0⟩).characteristics.functional = true ∧
      relay.assertedValues ⟨0⟩ ⟨0⟩ = [.individual ⟨3⟩, .individual ⟨4⟩] :=
  ⟨load_relayDocument, by decide +kernel⟩

end World

end Ontology
