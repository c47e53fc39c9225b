import Ontology.Proofs.DistinctKeys
import Ontology.Proofs.Entries

/-!
# Numbered entries

The individuals of entries are numbered for each class, in the order in which the entries are
written in the whole document.  The class of an entry is the first one of the range of its role, and
a role keeps its range, so the numbers can be read off the document with what is known in the end.

## Main definitions

* `World.entryConcepts` — the classes of the entries of statements, in their order.
* `EntryPlace` — what is written before an entry, `EntryPlace.Holds` — an entry is written there.
* `World.IsEntered` — what becomes of an entry.

## Main results

* `LoadSession.entered_load` — entries are noted in the order in which they are written.
* `LoadSession.exists_of_holds` — loading comes to each entry with all that is written before it.
* `World.entries_of_loadText` — **each entry about a relation becomes an individual of its own.**
-/

namespace Ontology

/-! ### Concepts of entries -/

namespace World

variable {w w' : World} {role : String} {c : ClassId}

/-- The class of the entries of a role, the first one of its range. -/
def entryConcept? (w : World) (role : String) : Option ClassId := do
  let p ← w.propertyNamed? role
  let first ← (w.getProperty p).rangeClasses.head?
  first.named?

/-- The classes of the entries of a role, one for each. -/
def roleConcepts (w : World) : Tree × Tree → List ClassId
  | (.string role, value) =>
    (w.entryConcept? role).elim [] (List.replicate (value.items?.getD []).length)
  | _ => []

/-- The classes of the entries of a statement, subject by subject and role by role. -/
def statementConcepts (w : World) (statement : String × Tree) : List ClassId :=
  if statement.1 = Statement.relationFacts.keyword then
    statement.2.entries.flatMap fun row => row.2.entries.flatMap w.roleConcepts
  else []

/-- The classes of the entries of statements, in the order in which the entries are written. -/
def entryConcepts (w : World) (statements : List (String × Tree)) : List ClassId :=
  statements.flatMap w.statementConcepts

theorem entryConcept?_eq_some_iff : w.entryConcept? role = some c ↔
    ∃ p, w.propertyNamed? role = some p ∧
      (w.getProperty p).rangeClasses.head? = some (.named c) := by
  have hnamed : ∀ e : ClassExpression, e.named? = some c ↔ e = .named c := by
    intro e
    cases e <;> simp [ClassExpression.named?]
  simp [entryConcept?, Option.bind_eq_some_iff, hnamed]

/-- A role keeps the class of its entries. -/
theorem IsExtendedBy.entryConcept? (h : w.IsExtendedBy w') (hc : w.entryConcept? role = some c) :
    w'.entryConcept? role = some c := by
  obtain ⟨p, hp, hc⟩ := entryConcept?_eq_some_iff.mp hc
  refine entryConcept?_eq_some_iff.mpr ⟨p, h.propertyNamed? hp, ?_⟩
  rwa [h.getProperty (has_property_of_rangeClasses hc)]

end World

namespace LoadSession

open World RelationConcepts

variable {s s' : LoadSession} {w w₀ : World} {subject : IndividualId} {p : PropertyId}
  {concept : ClassId} {term : Term} {node : Node} {name role keyword : String}
  {inner key value t : Tree} {roles rows more : List (Tree × Tree)}

/-- The classes of the entries so far, in the order in which they were processed. -/
def entered (s : LoadSession) : List ClassId :=
  s.concepts.created.reverse

theorem count_entered : s.entered.count concept = s.concepts.count concept :=
  List.count_reverse

theorem NotesEntries.entered {entries : List ClassId} (h : NotesEntries entries s s') :
    s'.entered = s.entered ++ entries.reverse := by
  rw [LoadSession.entered, h.concepts]
  exact List.reverse_append

/-- Declarations of classes are no entries. -/
theorem created_declareClass (h : s.declareClass t = .ok s') :
    s'.concepts.created = s.concepts.created := by
  obtain ⟨d, inner, body, c, s₁, s₂, -, -, hadd, hconcept, hproxy⟩ := declareClass_eq_ok h
  rw [(keepsHierarchies_addProxy hproxy).concepts, ← (addClass_eq_ok hadd).2.2.2.2.2]
  rcases noteConcept_cases hconcept with rfl | h | h
  · rfl
  · obtain ⟨⟨s₃, p⟩, hproperty, h⟩ := exists_of_bind_eq_ok h
    rw [← Except.ok.inj h, ← (addProperty_eq_ok hproperty).2.2.2.2.2]
    rfl
  · obtain ⟨-, _, _, _, -, -, h⟩ := exists_of_addMainRole h
    rw [(addProperty_eq_ok h).2.2.2.2.2]
    rfl

/-- Only facts about relations have entries. -/
theorem entered_statement_of_ne (hkeyword : keyword ≠ Statement.relationFacts.keyword)
    (h : s.statement keyword t = .ok s') : s'.entered = s.entered := by
  rcases statement_eq_ok_iff.mp h with ⟨-, rfl⟩ | ⟨kind, hkind, h⟩
  · rfl
  have hrelation : kind ≠ .relationFacts := by
    rintro rfl
    exact hkeyword (keyword_of_ofKeyword? hkind).symm
  rw [entered, entered]
  by_cases hone : kind = .oneClass
  · subst hone
    rw [created_declareClass h]
  by_cases hclasses : kind = .classes
  · subst hclasses
    have h : s.declareClasses t = .ok s' := h
    rw [declareClasses] at h
    split at h
    · refine congrArg List.reverse (invariant_of_foldlM
        (I := fun s₁ : LoadSession => s₁.concepts.created = s.concepts.created)
        (fun _ _ _ s₁ s₂ _ _ hs₁ h => ?_) rfl h)
      rw [created_declareClass h, hs₁]
    · simp at h
  · rw [(notesEntries_perform hone hclasses hrelation h).concepts]
    rfl

/-- The entries of a role are noted under its concept. -/
theorem entered_applyEntries (hterm : w₀.resolveName false role = .ok term)
    (hnode : w₀.applyKeyword "__rc_facts" value = .ok node) (h₀ : w₀.IsExtendedBy s.world)
    (hw : s.world.IsExtendedBy w) (h : s.applyEntries subject term node = .ok s') :
    s'.entered = s.entered ++ w.roleConcepts (.string role, value) := by
  obtain ⟨p, concept, hp, hconcept, hrun⟩ := applyEntries_eq_ok_iff.mp h
  have hnamed : w₀.propertyNamed? role = some p := by
    rw [propertyNamed?, lookup?_of_resolveName hterm hp]
  have hrole : w.entryConcept? role = some concept :=
    hw.entryConcept? (entryConcept?_eq_some_iff.mpr ⟨p, h₀.propertyNamed? hnamed, hconcept⟩)
  have hpairs : ∀ n ∈ node.items, ∃ roles, n = .pairs roles := by
    intro n hn
    obtain ⟨s₁, s₂, h⟩ := exists_of_foldlM_eq_ok hrun hn
    obtain ⟨roles, -, -, -, hroles, -⟩ := exists_of_applyEntry h
    exact ⟨roles, hroles⟩
  rw [(notesEntries_foldlM_applyEntry hrun).entered, List.reverse_replicate,
    length_items_of_applyKeyword hnode hpairs, roleConcepts, hrole, Option.elim_some]

theorem entered_applySubjectRoles (h₀ : w₀.IsExtendedBy s.world) (hw : s'.world.IsExtendedBy w)
    (h : s.applySubjectRoles w₀ subject roles = .ok s') :
    s'.entered = s.entered ++ roles.flatMap w.roleConcepts := by
  induction roles generalizing s with
  | nil =>
    obtain rfl : s = s' := Except.ok.inj h
    exact (List.append_nil _).symm
  | cons row rest ih =>
    obtain ⟨key, value⟩ := row
    obtain ⟨role, term, node, mid, rfl, hterm, hnode, hmid, h⟩ :=
      applySubjectRoles_cons_eq_ok_iff.mp h
    have hfirst := isExtendedBy_applyEntries hmid
    have hrest := isExtendedBy_applySubjectRoles h
    -- names were read with what was there first, and mean the same in the end
    rw [ih (h₀.trans hfirst) h,
      entered_applyEntries hterm hnode h₀ (hfirst.trans (hrest.trans hw)) hmid,
      List.append_assoc, List.flatMap_cons]

theorem entered_relationFacts (hw : s'.world.IsExtendedBy w)
    (h : s.relationFacts (.mapping rows) = .ok s') :
    s'.entered = s.entered ++ rows.flatMap fun row => row.2.entries.flatMap w.roleConcepts := by
  induction rows generalizing s with
  | nil =>
    obtain rfl : s = s' := Except.ok.inj h
    exact (List.append_nil _).symm
  | cons row rest ih =>
    obtain ⟨key, inner⟩ := row
    obtain ⟨name, mid, rfl, hmid, hstates⟩ := relationFacts_cons_eq_ok_iff.mp h
    have hrest := isExtendedBy_relationFacts hstates
    obtain ⟨subject, roles, -, rfl, hroles⟩ := applySubject_eq_ok_iff.mp hmid
    rw [ih hstates, entered_applySubjectRoles (.refl _) (hrest.trans hw) hroles, List.append_assoc,
      List.flatMap_cons]
    rfl

theorem entered_statement (hw : s'.world.IsExtendedBy w) (h : s.statement keyword t = .ok s') :
    s'.entered = s.entered ++ w.statementConcepts (keyword, t) := by
  rw [statementConcepts]
  split
  · next hkeyword =>
    subst hkeyword
    have h : s.relationFacts t = .ok s' := statement_keyword_eq_ok_iff.mp h
    obtain ⟨rows, hrows, -⟩ := exists_of_bind_eq_ok h
    obtain rfl := Shape.asMapping_eq_ok hrows
    exact entered_relationFacts hw h
  · next hkeyword => rw [entered_statement_of_ne hkeyword h, List.append_nil]

/-- **Entries are noted in the order in which they are written.** -/
theorem entered_load {statements : List (String × Tree)} (hw : s'.world.IsExtendedBy w)
    (h : s.load statements = .ok s') : s'.entered = s.entered ++ w.entryConcepts statements := by
  induction statements generalizing s with
  | nil =>
    obtain rfl : s = s' := Except.ok.inj h
    exact (List.append_nil _).symm
  | cons statement rest ih =>
    obtain ⟨keyword, t⟩ := statement
    obtain ⟨mid, hmid, h⟩ := foldlM_cons_eq_ok_iff.mp h
    rw [ih h, entered_statement ((isExtendedBy_load h).trans hw) hmid, List.append_assoc]
    rfl

end LoadSession

/-! ### Places of entries -/

/-- The place of an entry in a document: what is written before it. -/
structure EntryPlace where
  /-- The statements before that of the entry. -/
  statements : List (String × Tree)
  /-- The subjects before that of the entry, with their roles. -/
  subjects : List (Tree × Tree)
  /-- The name of the subject. -/
  subject : String
  /-- The roles of the subject before that of the entry, with their entries. -/
  roles : List (Tree × Tree)
  /-- The name of the role. -/
  role : String
  /-- The entries of the role before this one. -/
  entries : List Tree

namespace EntryPlace

/-- A document that ends before the subject. -/
def upToSubject (place : EntryPlace) : List (String × Tree) :=
  place.statements ++ [(Statement.relationFacts.keyword, .mapping place.subjects)]

/-- A document that ends with some entries of the role. -/
def upTo (place : EntryPlace) (entries : List Tree) : List (String × Tree) :=
  place.statements ++ [(Statement.relationFacts.keyword, .mapping (place.subjects ++
    [(.string place.subject, .mapping (place.roles ++
      [(.string place.role, .sequence entries)]))]))]

/-- An entry is written at a place, whatever is written after it. -/
def Holds (place : EntryPlace) (statements : List (String × Tree)) (entry : Tree) : Prop :=
  ∃ entries roles subjects after, statements = place.statements ++
    (Statement.relationFacts.keyword, .mapping (place.subjects ++
      (.string place.subject, .mapping (place.roles ++
        (.string place.role, .sequence (place.entries ++ entry :: entries)) :: roles)) ::
        subjects)) :: after

end EntryPlace

namespace LoadSession

open World RelationConcepts

variable {start s s' s₁ last : LoadSession} {place : EntryPlace} {statements : List (String × Tree)}
  {entry t : Tree}

theorem load_append_relationFacts_eq_ok_iff :
    start.load (statements ++ [(Statement.relationFacts.keyword, t)]) = .ok s' ↔
      ∃ s, start.load statements = .ok s ∧ s.relationFacts t = .ok s' := by
  rw [load, foldlM_append_eq_ok_iff]
  refine exists_congr fun s => and_congr_right fun _ => ?_
  rw [foldlM_cons_eq_ok_iff]
  constructor
  · rintro ⟨mid, hmid, h⟩
    rw [← Except.ok.inj h]
    exact statement_keyword_eq_ok_iff.mp hmid
  · exact fun h => ⟨s', statement_keyword_eq_ok_iff.mpr h, rfl⟩

/-- Further entries of a role are processed after those before it. -/
theorem load_upTo {i : IndividualId} {p : PropertyId} {c : ClassId} {term : Term}
    {entries : List Tree} {nodes : List Node} (hsubject : start.load place.upToSubject = .ok s)
    (hi : s.individual place.subject = .ok i)
    (hroles : s.applySubjectRoles s.world i place.roles = .ok s₁)
    (hterm : s.world.resolveName false place.role = .ok term)
    (hp : term.entity? = some (.property p))
    (hc : (s₁.world.getProperty p).rangeClasses.head? = some (.named c))
    (hnodes : entries.mapM (s.world.element "__rc_facts" .pairs) = .ok nodes)
    (hrun : nodes.foldlM (fun s n => s.applyEntry i p c n) s₁ = .ok s') :
    start.load (place.upTo entries) = .ok s' := by
  obtain ⟨s₂, hbefore, hsubjects⟩ := load_append_relationFacts_eq_ok_iff.mp hsubject
  have hrole : s₁.applyEntries i term (.list nodes) = .ok s' :=
    applyEntries_eq_ok_iff.mpr ⟨p, c, hp, hc, hrun⟩
  have hlast : s₁.applySubjectRoles s.world i [(.string place.role, .sequence entries)] = .ok s' :=
    applySubjectRoles_cons_eq_ok_iff.mpr ⟨_, term, _, s', rfl, hterm,
      applyKeyword_sequence_eq_ok_iff.mpr ⟨nodes, hnodes, rfl⟩, hrole, rfl⟩
  have hinner : s.applySubject place.subject (.mapping (place.roles ++
      [(.string place.role, .sequence entries)])) = .ok s' :=
    applySubject_eq_ok_iff.mpr
      ⟨i, _, hi, rfl, applySubjectRoles_append_eq_ok_iff.mpr ⟨s₁, hroles, hlast⟩⟩
  refine load_append_relationFacts_eq_ok_iff.mpr ⟨s₂, hbefore, ?_⟩
  exact relationFacts_append_eq_ok_iff.mpr
    ⟨s, hsubjects, relationFacts_cons_eq_ok_iff.mpr ⟨_, s', rfl, hinner, rfl⟩⟩

/-- **Loading comes to each entry, with all that is written before it.** -/
theorem exists_of_holds (hplace : place.Holds statements entry)
    (h : start.load statements = .ok last) : ∃ s₀ s s' i p c n,
      start.load place.upToSubject = .ok s₀ ∧ start.load (place.upTo place.entries) = .ok s ∧
      start.load (place.upTo (place.entries ++ [entry])) = .ok s' ∧
      s₀.world.individualNamed? place.subject = some i ∧
      s₀.world.propertyNamed? place.role = some p ∧
      (s.world.getProperty p).rangeClasses.head? = some (.named c) ∧
      s₀.world.element "__rc_facts" .pairs entry = .ok n ∧ s.applyEntry i p c n = .ok s' ∧
      s₀.world.IsExtendedBy s.world ∧ s'.world.IsExtendedBy last.world := by
  obtain ⟨entries, roles, subjects, after, rfl⟩ := hplace
  -- down to the subject
  obtain ⟨s₁, s₂, hbefore, hstatement, hafter⟩ := exists_of_load_append_cons h
  have hfacts : s₁.relationFacts _ = .ok s₂ := statement_keyword_eq_ok_iff.mp hstatement
  obtain ⟨s₀, hsubjects, hfacts⟩ := relationFacts_append_eq_ok_iff.mp hfacts
  obtain ⟨name, s₃, hname, hsubject, hfacts⟩ := relationFacts_cons_eq_ok_iff.mp hfacts
  obtain rfl := Tree.string.inj hname
  have hs₀ : start.load place.upToSubject = .ok s₀ :=
    load_append_relationFacts_eq_ok_iff.mpr ⟨s₁, hbefore, hsubjects⟩
  -- down to the role
  obtain ⟨i, rows, hi, hrows, hroles⟩ := applySubject_eq_ok_iff.mp hsubject
  obtain rfl := Tree.mapping.inj hrows
  obtain ⟨s₄, hroles₄, hroles⟩ := applySubjectRoles_append_eq_ok_iff.mp hroles
  obtain ⟨name, term, node, s₅, hname, hterm, hnode, hentries, hroles⟩ :=
    applySubjectRoles_cons_eq_ok_iff.mp hroles
  obtain rfl := Tree.string.inj hname
  -- down to the entry
  obtain ⟨nodes, hnodes, rfl⟩ := applyKeyword_sequence_eq_ok_iff.mp hnode
  obtain ⟨nodesBefore, _, hnodesBefore, hrest, rfl⟩ := mapM_append_eq_ok_iff.mp hnodes
  obtain ⟨n, nodesAfter, hn, -, rfl⟩ := mapM_cons_eq_ok_iff.mp hrest
  obtain ⟨p, c, hp, hc, hrun⟩ := applyEntries_eq_ok_iff.mp hentries
  obtain ⟨s, hs, hrun⟩ := foldlM_append_eq_ok_iff.mp hrun
  obtain ⟨s', hs', hrun⟩ := foldlM_cons_eq_ok_iff.mp hrun
  have hdone : s₄.world.IsExtendedBy s.world := isExtendedBy_foldlM_applyEntry hs
  have hkeep : s₀.world.IsExtendedBy s.world :=
    (isExtendedBy_applySubjectRoles hroles₄).trans hdone
  have hlast : s'.world.IsExtendedBy last.world :=
    (isExtendedBy_foldlM_applyEntry hrun).trans <| (isExtendedBy_applySubjectRoles hroles).trans <|
      (isExtendedBy_relationFacts hfacts).trans (isExtendedBy_load hafter)
  have hrange : (s.world.getProperty p).rangeClasses.head? = some (.named c) := by
    rwa [hdone.getProperty (has_property_of_rangeClasses hc)]
  refine ⟨s₀, s, s', i, p, c, n, hs₀, ?_, ?_, individualNamed?_of_individual hi, ?_, hrange, hn,
    hs', hkeep, hlast⟩
  · exact load_upTo hs₀ hi hroles₄ hterm hp hc hnodesBefore hs
  · refine load_upTo hs₀ hi hroles₄ hterm hp hc (mapM_append_eq_ok_iff.mpr
      ⟨_, [n], hnodesBefore, mapM_cons_eq_ok_iff.mpr ⟨n, [], hn, rfl, rfl⟩, rfl⟩) ?_
    exact foldlM_append_eq_ok_iff.mpr ⟨s, hs, foldlM_cons_eq_ok_iff.mpr ⟨s', hs', rfl⟩⟩
  · rw [propertyNamed?, lookup?_of_resolveName hterm hp]

end LoadSession

/-! ### Entries of documents -/

namespace World

open RelationConcepts

variable {w w' known after : World} {pair : Tree × Tree} {f : Fact}

/-- A part of an entry stands for a value of a property.  Its value is read with what is known in
front of the subject. -/
structure ReadsPair (w known : World) (pair : Tree × Tree) (p : PropertyId) (v : Value) : Prop where
  property : ∃ name, pair.1 = .string name ∧ w.propertyNamed? name = some p
  value : ∃ t, known.resolve true pair.2 = .ok t ∧ w.valueOf p t = .ok v

/-- An entry is an individual of its own.  It is processed between two ontologies, `before` and
`after`, and what is `known` in front of its subject gives names their meaning. -/
structure IsEntered (w known before after : World) (place : EntryPlace) (pairs : List (Tree × Tree))
    (i : IndividualId) (p : PropertyId) (c : ClassId) (e : IndividualId) : Prop where
  subject : w.individualNamed? place.subject = some i
  role : w.propertyNamed? place.role = some p
  concept : (w.getProperty p).rangeClasses.head? = some (.named c)
  /-- The entry adds one individual, behind those that were there. -/
  new : after.individualIds = before.individualIds ++ [e]
  isA : (after.getIndividual e).isA = [.named c]
  /-- The number of an individual is that of the entries of its class before. -/
  name : (after.getIndividual e).name = entryName (w.getClass c).name
    ((w.entryConcepts (place.upTo place.entries)).count c)
  named : w.individualNamed? (after.getIndividual e).name = some e
  last : after.assertedValues i p = before.assertedValues i p ++ [.individual e]
  once : .individual e ∉ before.assertedValues i p
  /-- Every part of the entry is the only value of its property. -/
  given : ∀ pair ∈ pairs, ∃ q v, w.ReadsPair known pair q v ∧ after.assertedValues e q = [v]
  /-- The individual has no other values. -/
  only : ∀ q, ∀ v ∈ after.assertedValues e q, ∃ pair ∈ pairs, w.ReadsPair known pair q v
  /-- What is written behind the entry takes nothing back. -/
  kept : after.IsExtendedBy w

/-- A value of a property that is there stays one. -/
theorem IsExtendedBy.valueOf (h : w.IsExtendedBy w') {p : PropertyId} {t : Term} {v : Value}
    (hp : w.Has (.property p)) (hv : w.valueOf p t = .ok v) : w'.valueOf p t = .ok v := by
  rw [World.valueOf] at hv ⊢
  rw [h.getProperty hp]
  split at hv
  · exact hv
  · obtain ⟨l, hl, hv⟩ := exists_of_bind_eq_ok hv
    rw [hl]
    split at hv
    · next haccepts =>
      rw [← hv]
      exact if_pos haccepts
    · simp at hv

/-- The parts of an entry are read as the facts about its individual. -/
theorem forall₂_readsPair {entries : List (Tree × Tree)} {roles : List (Term × PairValue)}
    {facts : List Fact} {e : IndividualId} (hknown : known.IsGrounded)
    (hkeep : known.IsExtendedBy after) (hw : after.IsExtendedBy w)
    (hroles : List.Forall₂ (known.ReadsAsRole entries) entries roles)
    (hfacts : List.Forall₂ (after.Means e) roles facts) :
    List.Forall₂ (fun pair f => w.ReadsPair known pair f.property f.value) entries facts := by
  refine forall₂_comp (fun pair role f => ?_) hroles hfacts
  rintro ⟨⟨name, hname, hrole⟩, hvalue⟩ ⟨-, hproperty, t, ht, hv⟩
  have hnamed : known.propertyNamed? name = some f.property := by
    rw [propertyNamed?, lookup?_of_resolveName hrole hproperty]
  have hhas : known.Has (.property f.property) :=
    hknown.has_of_knows (knows_of_propertyNamed? hnamed)
  rw [ht] at hvalue
  exact ⟨⟨name, hname, (hkeep.trans hw).propertyNamed? hnamed⟩, t, resolve_of_pairValue hvalue,
    hw.valueOf (hkeep.has hhas) hv⟩

/-- Pairs with different keys are about different properties. -/
theorem nodup_of_readsPair (hw : w.NamesMatch) {pairs : List (Tree × Tree)} {facts : List Fact}
    (hkeys : pairs.Pairwise fun a b => Tree.sameKey a.1 b.1 = false)
    (hread : List.Forall₂ (fun pair f => w.ReadsPair known pair f.property f.value) pairs facts) :
    (facts.map Fact.property).Nodup := by
  induction hread with
  | nil => exact .nil
  | cons hpair hrest ih =>
    obtain ⟨hne, hkeys⟩ := List.pairwise_cons.mp hkeys
    rw [List.map_cons, List.nodup_cons]
    refine ⟨fun hmem => ?_, ih hkeys⟩
    obtain ⟨g, hg, hproperty⟩ := List.mem_map.mp hmem
    obtain ⟨other, hother, hreads⟩ := exists_of_forall₂_right hrest hg
    obtain ⟨name, hname, hp⟩ := hpair.property
    obtain ⟨name', hname', hq⟩ := hreads.property
    rw [hproperty] at hq
    obtain rfl : name = name' := hw.injective _ _ _ (propertyNamed?_eq_some_iff.mp hp)
      (propertyNamed?_eq_some_iff.mp hq)
    have hsame := hne other hother
    rw [hname, hname'] at hsame
    simp [Tree.sameKey] at hsame

end World

namespace LoadSession

open World RelationConcepts

variable {start last : LoadSession} {place : EntryPlace} {statements : List (String × Tree)}
  {entry : Tree}

/-- **Each entry of a role becomes an individual of its own,** if its parts have different keys. -/
theorem isEntered_of_load (hstart : start.IsGrounded) (hnone : start.concepts.created = [])
    (hdiffer : entry.KeysDiffer) (hplace : place.Holds statements entry)
    (h : start.load statements = .ok last) : ∃ s₀ s s' pairs i p c e,
      start.load place.upToSubject = .ok s₀ ∧ start.load (place.upTo place.entries) = .ok s ∧
      start.load (place.upTo (place.entries ++ [entry])) = .ok s' ∧ entry = .mapping pairs ∧
      last.world.IsEntered s₀.world s.world s'.world place pairs i p c e := by
  obtain ⟨s₀, s, s', i, p, c, n, hs₀, hs, hs', hi, hp, hc, hn, happly, hkeep, hlast⟩ :=
    exists_of_holds hplace h
  have hgrounded : ∀ {done s}, start.load done = .ok s → s.world.IsGrounded := fun hload =>
    (exists_leadsTo_of_load hload).elim fun _ hsteps => (hsteps.isGrounded hstart).world
  have hafter : s.world.IsExtendedBy s'.world := isExtendedBy_applyEntry happly
  have hall : s₀.world.IsExtendedBy last.world := hkeep.trans (hafter.trans hlast)
  have hsubject : s.world.Has (.individual i) :=
    hkeep.has ((hgrounded hs₀).has_of_knows (knows_of_individualNamed? hi))
  have hproperty : s.world.Has (.property p) := has_property_of_rangeClasses hc
  obtain ⟨roles, facts, e, rfl, henters, hfacts⟩ := applyEntry_eq_ok hsubject happly
  obtain ⟨pairs, rfl, hpairs⟩ := forall₂_of_element hn
  have hread : List.Forall₂ (fun pair f =>
      last.world.ReadsPair s₀.world pair f.property f.value) pairs facts :=
    forall₂_readsPair (hgrounded hs₀) (hkeep.trans hafter) hlast hpairs hfacts
  -- a property occurs once, so that none of its values is replaced or joined by another one
  have hnodup : (facts.map Fact.property).Nodup := by
    obtain - | - | - | - | - | - | ⟨hkeys, -, -⟩ := hdiffer
    exact nodup_of_readsPair (hgrounded h).names hkeys hread
  refine ⟨s₀, s, s', pairs, i, p, c, e, hs₀, hs, hs', rfl, ?_⟩
  have hname : (s'.world.getIndividual e).name = entryName (last.world.getClass c).name
      ((last.world.entryConcepts (place.upTo place.entries)).count c) := by
    have hclass : s.world.Has (.class c) :=
      (hgrounded hs).has_of_knows (knows_of_rangeClasses hc)
    have hentered : s.entered = last.world.entryConcepts (place.upTo place.entries) := by
      rw [entered_load (hafter.trans hlast) hs, entered, hnone]
      rfl
    rw [henters.name, (hafter.trans hlast).getClass_name hclass, ← hentered, count_entered]
  exact {
    subject := hall.individualNamed? hi
    role := hall.propertyNamed? hp
    concept := by rwa [(hafter.trans hlast).getProperty hproperty]
    new := by
      rw [individualIds, henters.size, List.range_succ, List.map_append, individualIds,
        henters.place]
      rfl
    isA := henters.isA
    name := hname
    named := hlast.individualNamed? henters.named
    last := henters.last
    once := fun hmem => by
      -- what is a value was there before
      have hhas : s.world.Has (.individual e) := (hgrounded hs).references _
        ((references_of_mem_assertedValues hmem).2 (List.mem_singleton_self _))
      rw [henters.place] at hhas
      exact Nat.lt_irrefl _ hhas
    given := fun pair hpair => by
      obtain ⟨f, hf, hreads⟩ := exists_of_forall₂_left hread hpair
      refine ⟨f.property, f.value, hreads, ?_⟩
      rw [henters.own, valuesOf_of_nodup henters.about hnodup hf, valuesAfter_singleton]
    only := fun q v hv => by
      rw [henters.own] at hv
      obtain ⟨f, hf, rfl, rfl⟩ := exists_of_mem_valuesAfter hv
      exact exists_of_forall₂_right hread hf
    kept := hlast }

end LoadSession

/-! ### Documents -/

/-- The keys of the mappings in the statements of a document differ. -/
theorem Shape.keysDiffer_of_statements {document : Tree} {statements : List (String × Tree)}
    (hdocument : document.KeysDiffer) (h : Shape.statements document = .ok statements) :
    ∀ statement ∈ statements, statement.2.KeysDiffer := by
  intro statement hstatement
  cases document with
  | sequence items =>
    obtain ⟨t, ht, hsingle⟩ := exists_of_forall₂_right (mapM_eq_ok h) hstatement
    obtain rfl := Shape.single_eq_ok_iff.mp hsingle
    obtain - | - | - | - | - | hitems := hdocument
    obtain - | - | - | - | - | - | ⟨-, -, hvalues⟩ := hitems _ ht
    exact hvalues _ (List.mem_singleton_self _)
  | null =>
    rw [← Except.ok.inj h] at hstatement
    exact absurd hstatement List.not_mem_nil
  | _ => simp [Shape.statements] at h

/-- The parts of an entry have different keys if those of all mappings differ. -/
theorem EntryPlace.Holds.keysDiffer {place : EntryPlace} {statements : List (String × Tree)}
    {entry : Tree} (hplace : place.Holds statements entry)
    (h : ∀ statement ∈ statements, statement.2.KeysDiffer) : entry.KeysDiffer := by
  obtain ⟨entries, roles, subjects, after, rfl⟩ := hplace
  have hstatement := h _ (List.mem_append_right _ List.mem_cons_self)
  have hsubject := hstatement.of_mem_mapping (List.mem_append_right _ List.mem_cons_self)
  have hrole := hsubject.of_mem_mapping (List.mem_append_right _ List.mem_cons_self)
  obtain - | - | - | - | - | hitems := hrole
  exact hitems entry (List.mem_append_right _ List.mem_cons_self)

namespace World

open LoadSession RelationConcepts

variable {settings : LoadSettings} {folder : Folder} {base text : String} {document entry : Tree}
  {statements : List (String × Tree)} {place : EntryPlace} {w : World}

/-- **Each entry about a relation becomes an individual of its own.**  The document is processed up
to the subject, up to the entry and with the entry; the last of these steps adds one individual of
the first class of the role's range, numbered by the entries of this class before, makes it the last
value of the subject, and gives it the values that the entry has. -/
theorem entries_of_loadText (h : loadText settings folder base text = .ok w)
    (hdocument : Yaml.document text = .ok document)
    (hstatements : Shape.statements document = .ok statements)
    (hplace : place.Holds statements entry) : ∃ s₀ s s' pairs i p c e,
      (start settings folder base statements).load place.upToSubject = .ok s₀ ∧
      (start settings folder base statements).load (place.upTo place.entries) = .ok s ∧
      (start settings folder base statements).load (place.upTo (place.entries ++ [entry])) =
        .ok s' ∧
      entry = .mapping pairs ∧
      w.IsEntered s₀.world s.world s'.world place pairs i p c e := by
  rw [loadText, hdocument] at h
  obtain ⟨last, hload, rfl⟩ := exists_load_start h hstatements
  have hdiffer : entry.KeysDiffer := hplace.keysDiffer
    (Shape.keysDiffer_of_statements (Yaml.keysDiffer_of_document hdocument) hstatements)
  exact isEntered_of_load (LoadSession.isGrounded_new _ _ _ _) rfl hdiffer hplace hload

/-! ### A trail -/

/-- Two legs of a trail start at home, and both lead back. -/
def trailText : String :=
"- owl_class:
   Leg:
- owl_object_property:
   next:
    Domain: Leg
    Range: Leg
- owl_individual:
   home:
    types: [Leg]
- relation_concept_facts:
   home:
    next:
    - next: home
    - next: home
"

/-- A leg that leads home. -/
def legHome : Tree :=
  .object [("next", .string "home")]

/-- The second leg follows the first one. -/
def secondLeg : EntryPlace where
  statements := [
    ("owl_class", .object [("Leg", .null)]),
    ("owl_object_property", .object [("next", .object [
      ("Domain", .string "Leg"), ("Range", .string "Leg")])]),
    ("owl_individual", .object [("home", .object [("types", .sequence [.string "Leg"])])])]
  subjects := []
  subject := "home"
  roles := []
  role := "next"
  entries := [legHome]

/-- The statements of the trail. -/
def trailStatements : List (String × Tree) :=
  secondLeg.upTo [legHome, legHome]

/-- The document of these statements. -/
def trailDocument : Tree :=
  .sequence (trailStatements.map fun (keyword, body) => .object [(keyword, body)])

theorem document_trailText : Yaml.document trailText = .ok trailDocument := by
  have h : (Yaml.document trailText).toOption = some trailDocument := by decide +kernel
  have hread := eq_ok_of_isSome (x := Yaml.document trailText) (by rw [h]; rfl)
  rw [h] at hread
  exact hread

/-- The ontology of the text. -/
def trail : World :=
  (load {} {} "" trailDocument).toOption.getD default

theorem loadText_trailText : loadText {} {} "" trailText = .ok trail := by
  rw [loadText, document_trailText]
  exact eq_ok_of_isSome (by decide +kernel)

/-- The second leg is the last value of home, and home is its only value. -/
theorem entries_of_loadText_trail :
    loadText {} {} "" trailText = .ok trail ∧ Yaml.document trailText = .ok trailDocument ∧
    Shape.statements trailDocument = .ok trailStatements ∧
    secondLeg.Holds trailStatements legHome ∧ ∃ s s' e,
      (start {} {} "" trailStatements).load (secondLeg.upTo [legHome]) = .ok s ∧
      (start {} {} "" trailStatements).load (secondLeg.upTo [legHome, legHome]) = .ok s' ∧
      trail.individualNamed? "iLeg_1" = some e ∧
      s'.world.assertedValues ⟨0⟩ ⟨0⟩ = s.world.assertedValues ⟨0⟩ ⟨0⟩ ++ [.individual e] ∧
      s'.world.assertedValues e ⟨0⟩ = [.individual ⟨0⟩] := by
  have hstatements : Shape.statements trailDocument = .ok trailStatements := rfl
  have hplace : secondLeg.Holds trailStatements legHome := ⟨[], [], [], [], rfl⟩
  obtain ⟨s₀, s, s', pairs, i, p, c, e, hs₀, hs, hs', hentry, hentered⟩ :=
    entries_of_loadText loadText_trailText document_trailText hstatements hplace
  obtain ⟨hhome, hnext, hleg, hnumber⟩ : trail.individualNamed? "home" = some ⟨0⟩ ∧
      trail.propertyNamed? "next" = some ⟨0⟩ ∧
      (trail.getProperty ⟨0⟩).rangeClasses.head? = some (.named ⟨0⟩) ∧
      entryName (trail.getClass ⟨0⟩).name
        ((trail.entryConcepts (secondLeg.upTo secondLeg.entries)).count ⟨0⟩) = "iLeg_1" := by
    decide +kernel
  obtain rfl : ⟨0⟩ = i := Option.some.inj (hhome.symm.trans hentered.subject)
  obtain rfl : ⟨0⟩ = p := Option.some.inj (hnext.symm.trans hentered.role)
  obtain rfl : ⟨0⟩ = c :=
    ClassExpression.named.inj (Option.some.inj (hleg.symm.trans hentered.concept))
  refine ⟨loadText_trailText, document_trailText, hstatements, hplace, s, s', e, hs, hs', ?_,
    hentered.last, ?_⟩
  · rw [← hnumber, ← hentered.name]
    exact hentered.named
  · obtain rfl := Tree.mapping.inj hentry
    obtain ⟨q, v, ⟨⟨name, hname, hq⟩, t, ht, hv⟩, hvalue⟩ :=
      hentered.given _ (List.mem_singleton_self _)
    obtain rfl := Tree.string.inj hname
    obtain rfl : ⟨0⟩ = q := Option.some.inj (hnext.symm.trans hq)
    have hhome : ((start {} {} "" trailStatements).load secondLeg.upToSubject).toOption.bind
          (fun s => (s.world.resolve true (.string "home")).toOption) =
        some (.entity "home" (.individual ⟨0⟩)) := by
      decide +kernel
    rw [hs₀, Except.toOption, Option.bind_some, ht] at hhome
    cases hhome
    have hindividual : (trail.valueOf ⟨0⟩ (.entity "home" (.individual ⟨0⟩))).toOption =
        some (.individual ⟨0⟩) := by
      decide +kernel
    rw [hv] at hindividual
    cases hindividual
    exact hvalue

end World

end Ontology
