import Ontology.Proofs.Notes
import Ontology.Proofs.RestrictionExport

/-!
# Entries about relations

A statement of facts about relations names subjects, their roles, and the entries of each role.
The roles of a subject are all read before any of their entries is stated, and an entry becomes a
value of its subject before its own values are stated.

## Main definitions

* `World.enter` — an individual becomes a value and has the values of facts.
* `LoadSession.Enters` — an individual is entered about a subject.
* `LoadSession.applySubject`, `LoadSession.applySubjectRoles` — the parts of a statement.

## Main results

* `World.assertedValues_enter` — the values of the subject and of the individual.
* `LoadSession.applyEntry_eq_ok` — **an entry enters an individual.**
* `LoadSession.relationFacts_append_eq_ok_iff`, `LoadSession.applySubjectRoles_append_eq_ok_iff` —
  subjects and roles can be stated in two parts.
-/

namespace Ontology

namespace World

variable {w w' : World} {i : IndividualId} {p : PropertyId}

/-! ### Facts -/

theorem isExtendedBy_stateFact (w : World) (f : Fact) : w.IsExtendedBy (w.stateFact f) := by
  refine isExtendedBy_write fun i p v hassign => ?_
  rw [writeOf] at hassign
  split at hassign
  · next hfunctional =>
    cases hassign
    exact hfunctional
  · cases hassign

/-- Facts extend an ontology. -/
theorem isExtendedBy_stateFacts (w : World) (facts : List Fact) :
    w.IsExtendedBy (w.stateFacts facts) := by
  induction facts generalizing w with
  | nil => exact .refl w
  | cons f rest ih => exact (isExtendedBy_stateFact w f).trans (ih _)

theorem size_individuals_stateFacts (w : World) (facts : List Fact) :
    (w.stateFacts facts).individuals.size = w.individuals.size := by
  induction facts generalizing w with
  | nil => rfl
  | cons f rest ih =>
    refine (ih _).trans ?_
    rw [stateFact, write_eq, modifyIndividual, Array.size_modify]

/-- Facts change nothing of an individual but its values. -/
theorem getIndividual_stateFacts (w : World) (facts : List Fact) (i : IndividualId) :
    ∃ values, (w.stateFacts facts).getIndividual i =
      { w.getIndividual i with facts := values } := by
  induction facts generalizing w with
  | nil => exact ⟨_, rfl⟩
  | cons f rest ih =>
    obtain ⟨values, hvalues⟩ := ih (w.stateFact f)
    refine ⟨values, hvalues.trans ?_⟩
    rw [stateFact, write_eq, getIndividual_modifyIndividual]
    split <;> rfl

/-- A fact is the only one about its subject and its property if the properties differ. -/
theorem valuesOf_of_nodup {facts : List Fact} (hsubject : ∀ f ∈ facts, f.subject = i)
    (hnodup : (facts.map Fact.property).Nodup) {f : Fact} (hf : f ∈ facts) :
    valuesOf facts i f.property = [f.value] := by
  induction facts with
  | nil => exact absurd hf List.not_mem_nil
  | cons g rest ih =>
    obtain ⟨hg, hrest⟩ := List.forall_mem_cons.mp hsubject
    rw [List.map_cons, List.nodup_cons] at hnodup
    rw [← List.singleton_append, valuesOf_append]
    rcases List.mem_cons.mp hf with rfl | hf
    · have hnone : valuesOf rest i f.property = [] := by
        refine List.filterMap_eq_nil_iff.mpr fun g hmem => if_neg fun hmeets => hnodup.1 ?_
        exact List.mem_map.mpr ⟨g, hmem, hmeets.2⟩
      rw [hnone]
      simp [valuesOf, hg]
    · have hne : g.property ≠ f.property := fun heq =>
        hnodup.1 (heq ▸ List.mem_map_of_mem hf)
      have hnone : valuesOf [g] i f.property = [] := by simp [valuesOf, hne]
      rw [hnone, List.nil_append, ih hrest hnodup.2 hf]

/-- A single value is the only one afterwards, whether or not the property is functional. -/
theorem valuesAfter_singleton (p : PropertyId) (v : Value) : w.valuesAfter p [] [v] = [v] := by
  rw [valuesAfter]
  split <;> rfl

/-- Values of a property come from some fact. -/
theorem exists_of_mem_valuesAfter {facts : List Fact} {v : Value}
    (h : v ∈ w.valuesAfter p [] (valuesOf facts i p)) :
    ∃ f ∈ facts, f.property = p ∧ f.value = v := by
  have hv : v ∈ valuesOf facts i p := by
    rw [valuesAfter] at h
    split at h
    · cases hlast : (valuesOf facts i p).getLast? with
      | none =>
        rw [hlast] at h
        exact absurd h List.not_mem_nil
      | some u =>
        rw [hlast] at h
        rw [List.mem_singleton.mp h]
        exact List.mem_of_getLast? hlast
    · exact h
  obtain ⟨f, hf, hvalue⟩ := List.mem_filterMap.mp hv
  split at hvalue
  · next hmeets => exact ⟨f, hf, hmeets.2, Option.some.inj hvalue⟩
  · cases hvalue

/-- An individual that becomes a value and has the values of facts. -/
def enter (w : World) (subject : IndividualId) (p : PropertyId) (e : IndividualId)
    (facts : List Fact) : World :=
  (w.write (.enter subject p e)).stateFacts facts

section

variable {subject e : IndividualId} {facts : List Fact}

theorem sameVocabulary_enter (w : World) (subject : IndividualId) (p : PropertyId)
    (e : IndividualId) (facts : List Fact) : w.SameVocabulary (w.enter subject p e facts) :=
  have hfirst : w.SameVocabulary (w.write (.enter subject p e)) := ⟨_, write_eq _ _⟩
  hfirst.trans (sameVocabulary_stateFacts _ facts)

theorem isExtendedBy_enter (w : World) (subject : IndividualId) (p : PropertyId)
    (e : IndividualId) (facts : List Fact) : w.IsExtendedBy (w.enter subject p e facts) :=
  have hfirst : w.IsExtendedBy (w.write (.enter subject p e)) :=
    isExtendedBy_write fun _ _ _ hassign => by cases hassign
  hfirst.trans (isExtendedBy_stateFacts _ facts)

theorem size_individuals_enter :
    (w.enter subject p e facts).individuals.size = w.individuals.size := by
  rw [enter, size_individuals_stateFacts, write_eq, modifyIndividual, Array.size_modify]

/-- The individual itself changes in its values at most. -/
theorem getIndividual_enter (hne : subject ≠ e) :
    ∃ values, (w.enter subject p e facts).getIndividual e =
      { w.getIndividual e with facts := values } := by
  obtain ⟨values, hvalues⟩ := getIndividual_stateFacts (w.write (.enter subject p e)) facts e
  have hother : (w.write (.enter subject p e)).getIndividual e = w.getIndividual e := by
    rw [getIndividual, individual?_write_of_ne (x := .enter subject p e) hne, getIndividual]
  exact ⟨values, by rw [enter, hvalues, hother]⟩

/-- The individual is the last value of the subject as its facts are not about the subject, and has
the values of its facts besides those before. -/
theorem assertedValues_enter (hsubject : w.Has (.individual subject)) (he : w.Has (.individual e))
    (hne : subject ≠ e) (hfacts : ∀ f ∈ facts, f.subject = e) :
    (w.enter subject p e facts).assertedValues subject p =
        w.assertedValues subject p ++ [.individual e] ∧
      ∀ q, (w.enter subject p e facts).assertedValues e q =
        w.valuesAfter q (w.assertedValues e q) (valuesOf facts e q) := by
  have hfirst : w.SameVocabulary (w.write (.enter subject p e)) := ⟨_, write_eq _ _⟩
  have hhas : ∀ f ∈ facts, (w.write (.enter subject p e)).Has (.individual f.subject) := by
    intro f hf
    have hkeep : w.IsExtendedBy (w.write (.enter subject p e)) :=
      isExtendedBy_enter w subject p e []
    rw [hfacts f hf]
    exact hkeep.has he
  constructor
  · have hnone : valuesOf facts subject p = [] :=
      List.filterMap_eq_nil_iff.mpr fun f hf => if_neg fun hmeets =>
        hne (hmeets.1.symm.trans (hfacts f hf))
    rw [enter, assertedValues_stateFacts hhas, hnone, valuesAfter_nil, assertedValues_write,
      if_pos ⟨rfl, mem_individualIds_iff_has.mpr hsubject, rfl⟩]
    rfl
  · intro q
    rw [enter, assertedValues_stateFacts hhas, assertedValues_write,
      if_neg fun hmeets => hne hmeets.1, hfirst.valuesAfter]

end

/-! ### What an entry does -/

/-- A role of an entry, with a single value of a property, means a fact about its individual. -/
structure Means (w : World) (e : IndividualId) (role : Term × PairValue) (f : Fact) : Prop where
  subject : f.subject = e
  property : role.1.entity? = some (.property f.property)
  value : ∃ t, role.2 = .single t ∧ w.valueOf f.property t = .ok f.value

theorem Means.congr {e : IndividualId} {role : Term × PairValue} {f : Fact}
    (h : w.SameVocabulary w') (hf : w.Means e role f) : w'.Means e role f := by
  obtain ⟨hsubject, hproperty, t, ht, hv⟩ := hf
  exact ⟨hsubject, hproperty, t, ht, by rwa [h.valueOf]⟩

end World

namespace LoadSession

open World RelationConcepts

variable {s s' : LoadSession} {subject e : IndividualId} {p : PropertyId} {concept : ClassId}

theorem applyRole_eq_ok {role : Term × PairValue} (h : s.applyRole e role.1 role.2 = .ok s') :
    ∃ f, s.world.Means e role f ∧ s' = { s with world := s.world.stateFact f } := by
  obtain ⟨term, value⟩ := role
  dsimp only at h
  rw [applyRole] at h
  split at h
  · next q hq =>
    split at h
    · simp at h
    · next t =>
      obtain ⟨vs, hvs, rfl⟩ := applyFact_eq_ok h
      obtain ⟨v, _, hv, hrest, rfl⟩ := mapM_cons_eq_ok_iff.mp hvs
      obtain rfl := Except.ok.inj hrest
      exact ⟨⟨e, q, v⟩, ⟨rfl, hq, t, rfl, hv⟩, rfl⟩
  · simp at h

/-- The roles of an entry are stated one after the other. -/
theorem applyRoles_eq_ok {roles : List (Term × PairValue)}
    (h : roles.foldlM (fun s (role, value) => s.applyRole e role value) s = .ok s') :
    ∃ facts, List.Forall₂ (s.world.Means e) roles facts ∧
      s' = { s with world := s.world.stateFacts facts } := by
  induction roles generalizing s with
  | nil =>
    obtain rfl : s = s' := Except.ok.inj h
    exact ⟨[], .nil, rfl⟩
  | cons role rest ih =>
    obtain ⟨mid, hmid, h⟩ := foldlM_cons_eq_ok_iff.mp h
    obtain ⟨f, hf, rfl⟩ := applyRole_eq_ok hmid
    obtain ⟨facts, hfacts, rfl⟩ := ih h
    have hsame : s.world.SameVocabulary (s.world.stateFact f) := sameVocabulary_stateFacts _ [f]
    exact ⟨f :: facts, .cons hf (hfacts.imp fun _ _ => .congr hsame.symm), rfl⟩

/-- An individual is entered about a subject.  It is new, it is the last value of the subject, and
it has the values of some facts and no other ones. -/
structure Enters (s s' : LoadSession) (subject : IndividualId) (p : PropertyId) (concept : ClassId)
    (e : IndividualId) (facts : List Fact) : Prop where
  place : e = ⟨s.world.individuals.size⟩
  size : s'.world.individuals.size = s.world.individuals.size + 1
  name : (s'.world.getIndividual e).name =
    entryName (s.world.getClass concept).name (s.concepts.count concept)
  named : s'.world.individualNamed? (s'.world.getIndividual e).name = some e
  isA : (s'.world.getIndividual e).isA = [.named concept]
  last : s'.world.assertedValues subject p = s.world.assertedValues subject p ++ [.individual e]
  about : ∀ f ∈ facts, f.subject = e
  own : ∀ q, s'.world.assertedValues e q = s'.world.valuesAfter q [] (valuesOf facts e q)

/-- An entry adds an individual, which becomes a value and has the values of its roles. -/
theorem exists_of_applyEntry {n : Node} (h : s.applyEntry subject p concept n = .ok s') :
    ∃ roles facts s₁ e, n = .pairs roles ∧
      s.addIndividual (entryName (s.world.getClass concept).name (s.concepts.count concept))
        (.named concept) = .ok (s₁, e) ∧
      s'.world = s₁.world.enter subject p e facts ∧
      List.Forall₂ (s'.world.Means e) roles facts := by
  cases n with
  | pairs roles =>
    obtain ⟨⟨s₂, _⟩, hentry, h⟩ := exists_of_bind_eq_ok h
    obtain ⟨facts, hfacts, rfl⟩ := applyRoles_eq_ok h
    obtain ⟨⟨s₁, e⟩, hadd, hentry⟩ := exists_of_bind_eq_ok hentry
    obtain ⟨rfl, rfl⟩ := Prod.mk.inj (Except.ok.inj hentry)
    have hsame := sameVocabulary_stateFacts (s₁.world.pushFact subject p (.individual e)) facts
    exact ⟨roles, facts, s₁, e, rfl, hadd, rfl, hfacts.imp fun _ _ => .congr hsame⟩
  | _ => simp [applyEntry] at h

/-- **An entry enters an individual, and states the values of its roles about it.** -/
theorem applyEntry_eq_ok {n : Node} (hsubject : s.world.Has (.individual subject))
    (h : s.applyEntry subject p concept n = .ok s') :
    ∃ roles facts e, n = .pairs roles ∧ Enters s s' subject p concept e facts ∧
      List.Forall₂ (s'.world.Means e) roles facts := by
  obtain ⟨roles, facts, s₁, e, rfl, hadd, hworld, hfacts⟩ := exists_of_applyEntry h
  refine ⟨roles, facts, e, rfl, ?_, hfacts⟩
  obtain ⟨hplace, hinsert, ⟨iri, hindividuals⟩, -⟩ := addIndividual_eq_ok hadd
  have hperform := (perform_of_addIndividual hadd).1
  obtain ⟨hhas, hnew⟩ := hasEntry_of_perform hperform
  -- the subject was there before, so the facts of the individual are not about it
  have hne : subject ≠ e := fun heq => hnew (heq ▸ hsubject)
  have habout : ∀ f ∈ facts, f.subject = e := fun f hf =>
    (exists_of_forall₂_right hfacts hf).elim fun _ hmeans => hmeans.2.subject
  have hd : s₁.world.individual? e = some
      { name := entryName (s.world.getClass concept).name (s.concepts.count concept), iri,
        isA := [.named concept] } := by
    rw [individual?, hindividuals, hplace, Array.getElem?_push_size]
  obtain ⟨values, hvalues⟩ : ∃ values, (s₁.world.enter subject p e facts).getIndividual e =
      { s₁.world.getIndividual e with facts := values } := getIndividual_enter hne
  rw [← hworld, getIndividual_eq hd] at hvalues
  have hname := congrArg Individual.name hvalues
  obtain ⟨hlast, hown⟩ := assertedValues_enter (p := p)
    ((isExtendedBy_perform hperform).has hsubject) hhas hne habout
  have hsame := sameValues_addIndividual hadd
  have hvocabulary := sameVocabulary_enter s₁.world subject p e facts
  rw [← hworld] at hlast hown hvocabulary
  exact {
    place := hplace
    size := by rw [hworld, size_individuals_enter, hindividuals, Array.size_push]
    name := hname
    named := by
      have hnames : s'.world.names = s₁.world.names := by
        obtain ⟨_, heq⟩ := hvocabulary
        rw [heq]
      rw [hname, individualNamed?_eq_some_iff, hnames, Namespace.get?_of_insert hinsert, if_pos rfl]
    isA := congrArg Individual.isA hvalues
    last := by rw [hlast, hsame]
    about := habout
    own := fun q => by
      have hnone : s₁.world.assertedValues e q = [] := by
        rw [assertedValues, getIndividual_eq hd]
        rfl
      rw [hown, hnone, hvocabulary.valuesAfter] }

end LoadSession

/-! ### What is read -/

namespace World

variable {w w' : World} {keyword : String} {key value t : Tree} {roles more : List (Tree × Tree)}
  {named : List (Term × Node)} {node : Node}

theorem readNamed_append_eq_ok_iff : w.readNamed keyword (roles ++ more) = .ok named ↔
    ∃ rows rest, w.readNamed keyword roles = .ok rows ∧ w.readNamed keyword more = .ok rest ∧
      rows ++ rest = named := by
  simp only [readNamed, bind_eq_ok_iff, Shape.stringEntries, mapM_append_eq_ok_iff]
  constructor
  · rintro ⟨_, ⟨as, bs, has, hbs, rfl⟩, h⟩
    obtain ⟨rows, rest, hrows, hrest, rfl⟩ := mapM_append_eq_ok_iff.mp h
    exact ⟨rows, rest, ⟨as, has, hrows⟩, ⟨bs, hbs, hrest⟩, rfl⟩
  · rintro ⟨rows, rest, ⟨as, has, hrows⟩, ⟨bs, hbs, hrest⟩, rfl⟩
    exact ⟨_, ⟨as, bs, has, hbs, rfl⟩, mapM_append_eq_ok_iff.mpr ⟨rows, rest, hrows, hrest, rfl⟩⟩

theorem readNamed_cons_eq_ok_iff : w.readNamed keyword ((key, value) :: more) = .ok named ↔
    ∃ name term node rest, key = .string name ∧ w.resolveName false name = .ok term ∧
      w.applyKeyword keyword value = .ok node ∧ w.readNamed keyword more = .ok rest ∧
      (term, node) :: rest = named := by
  simp only [readNamed, bind_eq_ok_iff, Shape.stringEntries_eq_ok_iff]
  constructor
  · rintro ⟨texts, htexts, h⟩
    obtain ⟨⟨name, _⟩, others, rfl, hrow, rfl⟩ := List.map_eq_cons_iff.mp htexts.symm
    obtain ⟨rfl, rfl⟩ := Prod.mk.inj hrow
    obtain ⟨row, rest, hrow, hrest, rfl⟩ := mapM_cons_eq_ok_iff.mp h
    obtain ⟨term, hterm, hrow⟩ := exists_of_bind_eq_ok hrow
    obtain ⟨node, hnode, hrow⟩ := exists_of_bind_eq_ok hrow
    exact ⟨name, term, node, rest, rfl, hterm, hnode, ⟨others, rfl, hrest⟩, by
      rw [← Except.ok.inj hrow]⟩
  · rintro ⟨name, term, node, rest, rfl, hterm, hnode, ⟨others, rfl, hrest⟩, rfl⟩
    refine ⟨(name, value) :: others, rfl, mapM_cons_eq_ok_iff.mpr ⟨_, rest, ?_, hrest, rfl⟩⟩
    dsimp only
    rw [hterm, hnode]
    rfl

/-- The entries of a role are read one by one. -/
theorem applyKeyword_sequence_eq_ok_iff {items : List Tree} :
    w.applyKeyword "__rc_facts" (.sequence items) = .ok node ↔
      ∃ nodes, items.mapM (w.element "__rc_facts" .pairs) = .ok nodes ∧ .list nodes = node := by
  have hreading : Reading.ofKeyword? "__rc_facts" = some (.elements .list .pairs false) := by decide
  rw [applyKeyword, hreading]
  dsimp only
  rw [bind_eq_ok_iff]
  constructor
  · rintro ⟨nodes, hnodes, h⟩
    exact ⟨nodes, hnodes, Except.ok.inj h⟩
  · rintro ⟨nodes, hnodes, rfl⟩
    exact ⟨nodes, hnodes, rfl⟩

/-- Only the items of a sequence can be entries. -/
theorem length_items_of_applyKeyword (h : w.applyKeyword "__rc_facts" t = .ok node)
    (hpairs : ∀ n ∈ node.items, ∃ roles, n = .pairs roles) :
    node.items.length = (t.items?.getD []).length := by
  have hreading : Reading.ofKeyword? "__rc_facts" = some (.elements .list .pairs false) := by decide
  cases t with
  | sequence items =>
    obtain ⟨nodes, hnodes, rfl⟩ := applyKeyword_sequence_eq_ok_iff.mp h
    exact (mapM_eq_ok hnodes).length_eq.symm
  | mapping rows =>
    rw [applyKeyword, hreading] at h
    obtain ⟨_, -, h⟩ := exists_of_bind_eq_ok h
    obtain ⟨nodes, hnodes, h⟩ := exists_of_bind_eq_ok h
    obtain rfl := Except.ok.inj h
    cases nodes with
    | nil => rfl
    | cons n rest =>
      obtain ⟨roles, rfl⟩ := hpairs n List.mem_cons_self
      exact absurd rfl (LoadSession.applyEntries_ne_pairs hnodes _ List.mem_cons_self roles)
  | string text =>
    rw [applyKeyword, hreading] at h
    obtain rfl := Except.ok.inj h
    obtain ⟨roles, hroles⟩ := hpairs _ (List.mem_singleton_self _)
    cases hroles
  | _ => simp [applyKeyword, scalarBelow, hreading] at h

/-- A part of an entry is read as a role with its values. -/
structure ReadsAsRole (w : World) (entries : List (Tree × Tree)) (entry : Tree × Tree)
    (role : Term × PairValue) : Prop where
  key : ∃ name, entry.1 = .string name ∧ w.resolveName false name = .ok role.1
  value : w.pairValue entries entry.2 = .ok role.2

/-- An entry that is read is a mapping from names of roles to values. -/
theorem forall₂_of_element {roles : List (Term × PairValue)}
    (h : w.element keyword .pairs t = .ok (.pairs roles)) : ∃ entries, t = .mapping entries ∧
      List.Forall₂ (w.ReadsAsRole entries) entries roles := by
  obtain ⟨_, -, h⟩ := exists_of_bind_eq_ok h
  cases t with
  | mapping entries =>
    obtain ⟨named, hnamed, h⟩ := exists_of_bind_eq_ok h
    obtain ⟨pairs, hpairs, h⟩ := exists_of_bind_eq_ok h
    obtain rfl := Node.pairs.inj (Except.ok.inj h)
    have hread : List.Forall₂ (w.ReadsAsRole entries)
        (named.map fun row => (.string row.1, row.2)) pairs := by
      rw [List.forall₂_map_left_iff]
      refine (mapM_eq_ok hpairs).imp fun row role hread => ?_
      obtain ⟨term, hterm, hread⟩ := exists_of_bind_eq_ok hread
      obtain ⟨value, hvalue, hread⟩ := exists_of_bind_eq_ok hread
      rw [← Except.ok.inj hread]
      exact ⟨⟨row.1, rfl, hterm⟩, hvalue⟩
    rw [← Shape.stringEntries_eq_ok_iff.mp hnamed] at hread
    exact ⟨entries, rfl, hread⟩
  | _ => cases h

/-- A single value is a scalar. -/
theorem resolve_of_pairValue {entries : List (Tree × Tree)} {term : Term}
    (h : w.pairValue entries t = .ok (.single term)) : w.resolve true t = .ok term := by
  cases t with
  | sequence items =>
    obtain ⟨terms, -, h⟩ := exists_of_bind_eq_ok h
    cases h
  | string _ | int _ | float _ | bool _ =>
    obtain ⟨read, hread, h⟩ := exists_of_bind_eq_ok h
    cases h
    exact hread
  | _ => cases h

end World

namespace LoadSession

open World RelationConcepts

variable {s s' : LoadSession} {w w₀ : World} {subject : IndividualId} {p : PropertyId}
  {concept : ClassId} {term : Term} {node : Node} {name role keyword : String}
  {inner key value t : Tree} {roles rows more : List (Tree × Tree)}

/-! ### Parts of a statement -/

/-- States the entries of roles about a subject.  All of them are read with what was there first. -/
def applySubjectRoles (s : LoadSession) (w : World) (subject : IndividualId)
    (roles : List (Tree × Tree)) : Loading LoadSession := do
  let named ← w.readNamed "__rc_facts" roles
  named.foldlM (fun s (role, node) => s.applyEntries subject role node) s

/-- States the entries of a subject. -/
def applySubject (s : LoadSession) (name : String) (inner : Tree) : Loading LoadSession := do
  let subject ← s.individual name
  let roles ← Shape.asMapping "relation_concept_facts" inner
  s.applySubjectRoles s.world subject roles

/-- A statement states the entries of its subjects, one after the other. -/
theorem relationFacts_mapping (s : LoadSession) (rows : List (Tree × Tree)) :
    s.relationFacts (.mapping rows) = (do
      let named ← Shape.stringEntries rows
      named.foldlM (fun s (name, inner) => s.applySubject name inner) s) :=
  rfl

theorem relationFacts_append_eq_ok_iff : s.relationFacts (.mapping (rows ++ more)) = .ok s' ↔
    ∃ mid, s.relationFacts (.mapping rows) = .ok mid ∧
      mid.relationFacts (.mapping more) = .ok s' := by
  simp only [relationFacts_mapping, bind_eq_ok_iff, Shape.stringEntries, mapM_append_eq_ok_iff]
  constructor
  · rintro ⟨_, ⟨named, rest, hnamed, hrest, rfl⟩, h⟩
    obtain ⟨mid, hmid, h⟩ := foldlM_append_eq_ok_iff.mp h
    exact ⟨mid, ⟨named, hnamed, hmid⟩, rest, hrest, h⟩
  · rintro ⟨mid, ⟨named, hnamed, hmid⟩, rest, hrest, h⟩
    exact ⟨_, ⟨named, rest, hnamed, hrest, rfl⟩, foldlM_append_eq_ok_iff.mpr ⟨mid, hmid, h⟩⟩

theorem relationFacts_cons_eq_ok_iff : s.relationFacts (.mapping ((key, inner) :: more)) = .ok s' ↔
    ∃ name mid, key = .string name ∧ s.applySubject name inner = .ok mid ∧
      mid.relationFacts (.mapping more) = .ok s' := by
  simp only [relationFacts_mapping, bind_eq_ok_iff, Shape.stringEntries_eq_ok_iff]
  constructor
  · rintro ⟨named, hnamed, h⟩
    obtain ⟨⟨name, _⟩, rest, rfl, hrow, rfl⟩ := List.map_eq_cons_iff.mp hnamed.symm
    obtain ⟨rfl, rfl⟩ := Prod.mk.inj hrow
    obtain ⟨mid, hmid, h⟩ := foldlM_cons_eq_ok_iff.mp h
    exact ⟨name, mid, rfl, hmid, rest, rfl, h⟩
  · rintro ⟨name, mid, rfl, hmid, rest, rfl, h⟩
    exact ⟨(name, inner) :: rest, rfl, foldlM_cons_eq_ok_iff.mpr ⟨mid, hmid, h⟩⟩

theorem applySubject_eq_ok_iff : s.applySubject name inner = .ok s' ↔
    ∃ subject roles, s.individual name = .ok subject ∧ inner = .mapping roles ∧
      s.applySubjectRoles s.world subject roles = .ok s' := by
  simp only [applySubject, bind_eq_ok_iff]
  constructor
  · rintro ⟨subject, hsubject, roles, hroles, h⟩
    exact ⟨subject, roles, hsubject, Shape.asMapping_eq_ok hroles, h⟩
  · rintro ⟨subject, roles, hsubject, rfl, h⟩
    exact ⟨subject, hsubject, roles, rfl, h⟩

theorem applySubjectRoles_append_eq_ok_iff :
    s.applySubjectRoles w subject (roles ++ more) = .ok s' ↔
      ∃ mid, s.applySubjectRoles w subject roles = .ok mid ∧
        mid.applySubjectRoles w subject more = .ok s' := by
  simp only [applySubjectRoles, bind_eq_ok_iff, readNamed_append_eq_ok_iff]
  constructor
  · rintro ⟨_, ⟨named, rest, hnamed, hrest, rfl⟩, h⟩
    obtain ⟨mid, hmid, h⟩ := foldlM_append_eq_ok_iff.mp h
    exact ⟨mid, ⟨named, hnamed, hmid⟩, rest, hrest, h⟩
  · rintro ⟨mid, ⟨named, hnamed, hmid⟩, rest, hrest, h⟩
    exact ⟨_, ⟨named, rest, hnamed, hrest, rfl⟩, foldlM_append_eq_ok_iff.mpr ⟨mid, hmid, h⟩⟩

theorem applySubjectRoles_cons_eq_ok_iff :
    s.applySubjectRoles w subject ((key, value) :: more) = .ok s' ↔
      ∃ role term node mid, key = .string role ∧ w.resolveName false role = .ok term ∧
        w.applyKeyword "__rc_facts" value = .ok node ∧ s.applyEntries subject term node = .ok mid ∧
        mid.applySubjectRoles w subject more = .ok s' := by
  simp only [applySubjectRoles, bind_eq_ok_iff, readNamed_cons_eq_ok_iff]
  constructor
  · rintro ⟨_, ⟨role, term, node, rest, rfl, hterm, hnode, hrest, rfl⟩, h⟩
    obtain ⟨mid, hmid, h⟩ := foldlM_cons_eq_ok_iff.mp h
    exact ⟨role, term, node, mid, rfl, hterm, hnode, hmid, rest, hrest, h⟩
  · rintro ⟨role, term, node, mid, rfl, hterm, hnode, hmid, rest, hrest, h⟩
    exact ⟨_, ⟨role, term, node, rest, rfl, hterm, hnode, hrest, rfl⟩,
      foldlM_cons_eq_ok_iff.mpr ⟨mid, hmid, h⟩⟩

theorem applyEntries_eq_ok_iff : s.applyEntries subject term node = .ok s' ↔
    ∃ p concept, term.entity? = some (.property p) ∧
      (s.world.getProperty p).rangeClasses.head? = some (.named concept) ∧
      node.items.foldlM (fun s n => s.applyEntry subject p concept n) s = .ok s' := by
  rw [applyEntries]
  constructor
  · intro h
    split at h
    · next p hp =>
      split at h
      · next concept hconcept => exact ⟨p, concept, hp, hconcept, h⟩
      · simp at h
    · simp at h
  · rintro ⟨p, concept, hp, hconcept, h⟩
    simp only [hp, hconcept]
    exact h

/-! ### Extensions -/

theorem isExtendedBy_foldlM {α : Type} {f : LoadSession → α → Loading LoadSession} {as : List α}
    (hf : ∀ a s₁ s₂, f s₁ a = .ok s₂ → s₁.world.IsExtendedBy s₂.world)
    (h : as.foldlM f s = .ok s') : s.world.IsExtendedBy s'.world :=
  rel_of_foldlM (R := fun s₁ s₂ => s₁.world.IsExtendedBy s₂.world) (fun _ => .refl _)
    (fun _ _ _ h h' => h.trans h') (fun a _ s₁ s₂ _ h => hf a s₁ s₂ h) h

theorem isExtendedBy_applyEntry {n : Node} (h : s.applyEntry subject p concept n = .ok s') :
    s.world.IsExtendedBy s'.world := by
  obtain ⟨roles, facts, s₁, e, -, hadd, hworld, -⟩ := exists_of_applyEntry h
  rw [hworld]
  exact (isExtendedBy_perform (perform_of_addIndividual hadd).1).trans
    (isExtendedBy_enter _ _ _ _ _)

theorem isExtendedBy_foldlM_applyEntry {ns : List Node}
    (h : ns.foldlM (fun s n => s.applyEntry subject p concept n) s = .ok s') :
    s.world.IsExtendedBy s'.world :=
  isExtendedBy_foldlM (fun _ _ _ => isExtendedBy_applyEntry) h

theorem isExtendedBy_applyEntries (h : s.applyEntries subject term node = .ok s') :
    s.world.IsExtendedBy s'.world := by
  obtain ⟨p, concept, -, -, h⟩ := applyEntries_eq_ok_iff.mp h
  exact isExtendedBy_foldlM_applyEntry h

theorem isExtendedBy_applySubjectRoles (h : s.applySubjectRoles w subject roles = .ok s') :
    s.world.IsExtendedBy s'.world := by
  obtain ⟨named, -, h⟩ := exists_of_bind_eq_ok h
  exact isExtendedBy_foldlM (fun _ _ _ => isExtendedBy_applyEntries) h

theorem isExtendedBy_applySubject (h : s.applySubject name inner = .ok s') :
    s.world.IsExtendedBy s'.world := by
  obtain ⟨subject, roles, -, -, h⟩ := applySubject_eq_ok_iff.mp h
  exact isExtendedBy_applySubjectRoles h

theorem isExtendedBy_relationFacts (h : s.relationFacts t = .ok s') :
    s.world.IsExtendedBy s'.world := by
  obtain ⟨_, -, h⟩ := exists_of_bind_eq_ok h
  obtain ⟨named, -, h⟩ := exists_of_bind_eq_ok h
  exact isExtendedBy_foldlM (fun row _ _ => isExtendedBy_applySubject) h

theorem isExtendedBy_load {statements : List (String × Tree)} (h : s.load statements = .ok s') :
    s.world.IsExtendedBy s'.world :=
  (exists_leadsTo_of_load h).elim fun _ hsteps => hsteps.isExtendedBy

end LoadSession

end Ontology
