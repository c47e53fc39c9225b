import Ontology.Proofs.Export
import Ontology.Proofs.Grounded
import Ontology.Proofs.Members

/-!
# How long saturation takes

An ontology mentions finitely many entities and literals, and rounds put together nothing else.  So
there are finitely many facts and types that can ever become known.  As every round but the last one
adds one of them, there is a number of rounds after which nothing is left to add, whatever
saturation starts from.

## Main definitions

* `World.mentioned` — what an ontology mentions, as a scope.
* `World.entries` — the facts and types about what is mentioned; `World.missing` — those that are
  not known.

## Main results

* `World.keepsTo_of_mentions` — what an ontology adds is about what it mentions.
* `World.length_missing_saturationRound_lt` — a round that adds something leaves less to add.
* `World.isSettled_of_length_entries_lt` — **a limit that is higher than the number of entries stops
  no saturation.**
-/

namespace Ontology

/-! ### What is mentioned -/

mutual

/-- An expression refers to the named classes that its members belong to. -/
theorem ClassExpression.mem_references_of_mem_namedConjuncts {c : ClassId} :
    ∀ {e : ClassExpression}, c ∈ e.namedConjuncts → .class c ∈ e.references
  | .named d, h => by
    rw [List.mem_singleton.mp h]
    exact List.mem_singleton_self _
  | .and parts, h => ClassExpression.mem_referencesOfParts_of_mem_namedConjuncts h
  | .thing, h | .nothing, h | .or _, h | .not _, h | .oneOf _, h | .restriction _ _ _, h =>
    absurd h List.not_mem_nil
termination_by structural e => e

theorem ClassExpression.mem_referencesOfParts_of_mem_namedConjuncts {c : ClassId} :
    ∀ {parts : List ClassExpression}, c ∈ ClassExpression.namedConjunctsOfParts parts →
      .class c ∈ ClassExpression.referencesOfParts parts
  | [], h => absurd h List.not_mem_nil
  | part :: rest, h => by
    rcases List.mem_append.mp h with h | h
    · exact List.mem_append_left _ (ClassExpression.mem_references_of_mem_namedConjuncts h)
    · exact List.mem_append_right _
        (ClassExpression.mem_referencesOfParts_of_mem_namedConjuncts h)
termination_by structural parts => parts

end

/-- A reference to an individual as a value. -/
def Reference.value? : Reference → Option Value
  | .individual i => some (.individual i)
  | .class _ | .property _ => none

/-- The values that a rule mentions. -/
def Rule.constants (r : Rule) : List Value :=
  (r.body ++ r.head).flatMap fun atom => atom.arguments.filterMap (·.value? [])

namespace World

/-- What an ontology refers to, and what is its own. -/
def mentions (w : World) : List Reference :=
  w.references ++ w.classIds.map .class ++ w.propertyIds.map .property
    ++ w.individualIds.map .individual

/-- The individuals and all values that an ontology mentions. -/
def mentionedValues (w : World) : List Value :=
  w.mentions.filterMap Reference.value? ++ w.interpretation.facts.map (·.value)
    ++ w.rules.toList.flatMap Rule.constants

/-- What an ontology mentions, as a scope. -/
def mentioned (w : World) : Scope where
  classes c := .class c ∈ w.mentions
  properties p := .property p ∈ w.mentions
  values v := v ∈ w.mentionedValues

variable {w : World} {S : Scope} {I J : Interpretation}

theorem mem_mentions {r : Reference} : r ∈ w.mentions ↔ r ∈ w.references ∨ w.Has r := by
  simp only [mentions, List.mem_append, List.mem_map]
  cases r with
  | «class» c => simp [mem_classIds]
  | property p => simp [mem_propertyIds]
  | individual i => simp [mem_individualIds_iff_has]

theorem individual_mem_mentionedValues {i : IndividualId} (h : .individual i ∈ w.mentions) :
    .individual i ∈ w.mentionedValues := by
  refine List.mem_append_left _ (List.mem_append_left _ ?_)
  exact List.mem_filterMap.mpr ⟨_, h, rfl⟩

/-! ### What an ontology adds -/

theorem has_of_mem_equivalentTo {c : ClassId} {e : ClassExpression}
    (h : e ∈ (w.getClass c).equivalentTo) : w.Has (.class c) := by
  obtain ⟨d, hd, hrow⟩ := List.mem_flatMap.mp (mem_definitions.mpr h)
  obtain ⟨_, -, heq⟩ := List.mem_map.mp hrow
  rw [← (Prod.mk.inj heq).1]
  exact mem_classIds.mp hd

/-- Candidates for a definition are listed in it or are individuals of the ontology. -/
theorem mem_candidates {e : ClassExpression} {i : IndividualId} (h : i ∈ w.candidates e) :
    .individual i ∈ e.references ∨ w.Has (.individual i) := by
  cases e with
  | oneOf members => exact .inl (List.mem_map_of_mem h)
  | thing | nothing | named _ | and _ | or _ | not _ | restriction _ _ _ =>
    exact .inr (mem_individualIds_iff_has.mp h)

/-- Rules refer to the entities in their atoms. -/
theorem references_of_mem_atoms {r : Rule} (hr : r ∈ w.rules) {atom : Atom}
    (hatom : atom ∈ r.body ++ r.head) : atom.references ⊆ w.references := fun _ hx =>
  mem_references.mpr (.inr (.inl (List.mem_flatMap.mpr
    ⟨r, Array.mem_toList_iff.mpr hr, List.mem_flatMap.mpr ⟨atom, hatom, hx⟩⟩)))

/-- Atoms of rules are about what the ontology refers to and about the constants of the rules. -/
theorem liesIn_of_mem_atoms {r : Rule} (hr : r ∈ w.rules) {atom : Atom}
    (hatom : atom ∈ r.body ++ r.head) (hclass : ∀ c, .class c ∈ w.references → S.classes c)
    (hproperty : ∀ p, .property p ∈ w.references → S.properties p)
    (hconstants : ∀ v ∈ r.constants, S.values v) : atom.LiesIn S := by
  have hrefs := references_of_mem_atoms hr hatom
  have harguments : ∀ a ∈ atom.arguments, a.LiesIn S := by
    intro a ha
    have hconstant : ∀ v, a.value? [] = some v → S.values v := fun v hv =>
      hconstants v (List.mem_flatMap.mpr ⟨atom, hatom, List.mem_filterMap.mpr ⟨a, ha, hv⟩⟩)
    cases a with
    | «variable» name => trivial
    | individual i => exact hconstant _ rfl
    | literal l => exact hconstant _ rfl
  cases atom with
  | type c a =>
    exact ⟨hclass c (hrefs List.mem_cons_self), harguments a (by simp [Atom.arguments])⟩
  | fact p s o =>
    have hs := harguments s (by simp [Atom.arguments])
    exact ⟨hproperty p (hrefs List.mem_cons_self), hs, harguments o (by simp [Atom.arguments])⟩
  | same x y | different x y =>
    have hx := harguments x (by simp [Atom.arguments])
    exact ⟨hx, harguments y (by simp [Atom.arguments])⟩

/-- A property refers to what its domain and its range refer to. -/
theorem references_of_mem_ends {p : Property} {e : ClassExpression}
    (h : e ∈ p.domain ++ p.rangeClasses) : e.references ⊆ p.references := by
  intro r hr
  simp only [Property.references, List.mem_append, List.mem_flatMap]
  rcases List.mem_append.mp h with he | he
  · exact .inl (.inl ⟨e, he, hr⟩)
  · refine .inl (.inr ?_)
    rw [Property.rangeClasses] at he
    revert he
    cases p.range with
    | classes es => exact fun he => List.mem_flatMap.mpr ⟨e, he, hr⟩
    | datatypes ds => exact fun he => absurd he List.not_mem_nil

/-- **What an ontology adds is about what it mentions.** -/
theorem keepsTo_of_mentions (hclasses : ∀ c, .class c ∈ w.mentions → S.classes c)
    (hproperties : ∀ p, .property p ∈ w.mentions → S.properties p)
    (hindividuals : ∀ i, .individual i ∈ w.mentions → S.values (.individual i))
    (hconstants : ∀ r ∈ w.rules, ∀ v ∈ r.constants, S.values v) : w.KeepsTo S := by
  have hclass : ∀ {c}, .class c ∈ w.references → S.classes c :=
    fun h => hclasses _ (mem_mentions.mpr (.inl h))
  have hproperty : ∀ {p}, .property p ∈ w.references → S.properties p :=
    fun h => hproperties _ (mem_mentions.mpr (.inl h))
  constructor
  case rules =>
    intro r hr atom hatom
    exact liesIn_of_mem_atoms hr hatom (fun _ => hclass) (fun _ => hproperty) (hconstants r hr)
  case inverses =>
    intro p q hq
    have hmem : .property q ∈ (w.getProperty p).references := by
      simp [Property.references, hq]
    have hown : w.Has (.property p) := has_property_iff.mpr ⟨_, property?_of_mem_references hmem⟩
    exact ⟨hproperties p (mem_mentions.mpr (.inr hown)),
      hproperty (references_getProperty w p hmem)⟩
  case superproperties =>
    intro p q hq
    have hmem : .property q ∈ (w.getProperty p).references := by
      simp [Property.references, hq]
    exact hproperty (references_getProperty w p hmem)
  case ends =>
    intro p e he c hc
    have href := ClassExpression.mem_references_of_mem_namedConjuncts hc
    exact hclass (references_getProperty w p (references_of_mem_ends he href))
  case superclasses =>
    intro c d hd
    exact hclass (references_getClass w c (mem_references_of_mem_parents hd))
  case definitions =>
    intro c e he
    have hmem : e.references ⊆ w.references := fun r hr =>
      references_getClass w c (List.mem_flatMap.mpr ⟨e, List.mem_append_right _ he, hr⟩)
    refine ⟨hclasses c (mem_mentions.mpr (.inr (has_of_mem_equivalentTo he))), fun d hd => ?_,
      fun i hi => hindividuals i ?_⟩
    · exact hclass (hmem (ClassExpression.mem_references_of_mem_namedConjuncts hd))
    · exact mem_mentions.mpr ((mem_candidates hi).imp_left fun href => hmem href)

/-- What saturation starts from is mentioned. -/
theorem liesIn_interpretation (w : World) : w.interpretation.LiesIn w.mentioned := by
  rintro (⟨i, c⟩ | ⟨s, p, v⟩) hd
  · have hc : c ∈ w.directTypes i := mem_types_interpretation.mp hd
    have hi : w.Has (.individual i) :=
      mem_individualIds_iff_has.mp (mem_individualIds_of_mem_directTypes hc)
    refine ⟨individual_mem_mentionedValues (mem_mentions.mpr (.inr hi)),
      mem_mentions.mpr (.inl (references_getIndividual w i ?_))⟩
    simp only [Individual.references, List.mem_append, List.mem_flatMap]
    rcases mem_directTypes.mp hc with hstated | hinferred
    · exact .inl (.inl (.inl ⟨_, hstated, List.mem_singleton_self _⟩))
    · exact .inr (List.mem_map_of_mem hinferred)
  · have hv : v ∈ w.values s p := mem_facts_interpretation.mp hd
    have hs : w.Has (.individual s) :=
      mem_individualIds_iff_has.mp (mem_individualIds_of_mem_values hv)
    have hp : .property p ∈ w.references := by
      rcases mem_values.mp hv with hstated | hinferred
      · exact (references_of_assertions (.inl rfl) hstated).1
      · exact (references_of_assertions (.inr rfl) hinferred).1
    refine ⟨individual_mem_mentionedValues (mem_mentions.mpr (.inr hs)),
      mem_mentions.mpr (.inl hp), ?_⟩
    exact List.mem_append_left _ (List.mem_append_right _ (List.mem_map.mpr ⟨_, hd, rfl⟩))

theorem keepsTo_mentioned (w : World) : w.KeepsTo w.mentioned := by
  refine keepsTo_of_mentions (fun _ h => h) (fun _ h => h)
    (fun _ h => individual_mem_mentionedValues h) fun r hr v hv => ?_
  exact List.mem_append_right _ (List.mem_flatMap.mpr ⟨r, Array.mem_toList_iff.mpr hr, hv⟩)

/-- What relates two individuals of an ontology is about what it mentions. -/
theorem liesIn_of_mem_links {f : Fact} (h : f ∈ w.links) : (Derived.fact f).LiesIn w.mentioned := by
  simp only [links, List.mem_flatMap, List.mem_map] at h
  obtain ⟨s, hs, p, hp, o, ho, rfl⟩ := h
  have hindividual : ∀ {i}, i ∈ w.individualIds → .individual i ∈ w.mentionedValues := fun hi =>
    individual_mem_mentionedValues (mem_mentions.mpr (.inr (mem_individualIds_iff_has.mp hi)))
  exact ⟨hindividual hs, mem_mentions.mpr (.inr (mem_propertyIds.mp hp)), hindividual ho⟩

/-! ### Rounds that add something -/

instance (I : Interpretation) : DecidablePred I.Holds
  | .type i c => inferInstanceAs (Decidable ((i, c) ∈ I.types))
  | .fact f => inferInstanceAs (Decidable (f ∈ I.facts))

/-- All facts and types about what an ontology mentions. -/
def entries (w : World) : List Derived :=
  w.mentionedValues.flatMap fun
    | .individual i => w.mentions.flatMap fun
      | .class c => [.type i c]
      | .property p => w.mentionedValues.map fun v => .fact ⟨i, p, v⟩
      | .individual _ => []
    | .expression _ | .literal _ => []

/-- Those that are not known. -/
def missing (w : World) (I : Interpretation) : List Derived :=
  w.entries.filter (¬I.Holds ·)

theorem mem_entries {d : Derived} (h : d.LiesIn w.mentioned) : d ∈ w.entries := by
  rw [entries, List.mem_flatMap]
  cases d with
  | type i c =>
    obtain ⟨hi, hc⟩ := h
    exact ⟨.individual i, hi, List.mem_flatMap.mpr ⟨.class c, hc, List.mem_singleton_self _⟩⟩
  | fact f =>
    obtain ⟨hs, hp, hv⟩ := h
    exact ⟨.individual f.subject, hs, List.mem_flatMap.mpr
      ⟨.property f.property, hp, List.mem_map.mpr ⟨f.value, hv, rfl⟩⟩⟩

/-- A round that adds something makes something known. -/
theorem exists_holds_of_saturationRound (h : w.saturationRound I = .ok J)
    (hsize : J.size ≠ I.size) :
    ∃ d, J.Holds d ∧ ¬I.Holds d := by
  by_contra hnone
  have hknown : ∀ d, J.Holds d → I.Holds d := by
    intro d hd
    by_contra hnew
    exact hnone ⟨d, hd, hnew⟩
  obtain ⟨ds, -, hJ⟩ := saturationRound_eq_ok h
  -- none of the three parts of the round adds anything
  have hfacts : I.addFacts (w.propertyConsequences I) = I := by
    refine Interpretation.addFacts_eq_self fun f hf => hknown (.fact f) ?_
    rw [hJ, Interpretation.Holds, Interpretation.facts_addTypes]
    exact (Interpretation.extends_addDerived _ _).le.1 (Interpretation.mem_addFacts.mpr (.inr hf))
  rw [hfacts] at hJ
  have hderived : I.addDerived ds = I := by
    refine Interpretation.addDerived_eq_self fun d hd => hknown d ?_
    rw [hJ]
    exact (Interpretation.holds_addDerived.mpr (.inr hd)).mono
      (Interpretation.extends_addTypes _ _).le
  rw [hderived] at hJ
  have htypes : I.addTypes (w.typeConsequences I) = I := by
    refine Interpretation.addTypes_eq_self fun t ht => hknown (.type t.1 t.2) ?_
    rw [hJ]
    exact Interpretation.mem_addTypes.mpr (.inr ht)
  rw [htypes] at hJ
  exact hsize (by rw [hJ])

/-- **A round that adds something leaves less to add.** -/
theorem length_missing_saturationRound_lt (hI : I.LiesIn w.mentioned)
    (h : w.saturationRound I = .ok J) (hsize : J.size ≠ I.size) :
    (w.missing J).length < (w.missing I).length := by
  obtain ⟨d, hJ, hnew⟩ := exists_holds_of_saturationRound h hsize
  have hd : d ∈ w.entries := mem_entries (hI.saturationRound w.keepsTo_mentioned h d hJ)
  refine length_filter_lt_of_imp (fun e _ he => ?_) hd (by simpa using hnew) (by simpa using hJ)
  rw [decide_eq_true_eq] at he ⊢
  exact fun hold => he (hold.mono (extends_saturationRound h).le)

/-- With as many further rounds as there are entries missing saturation comes to its end. -/
theorem isSettled_of_length_missing_le {more rounds : Nat} (hI : I.LiesIn w.mentioned)
    (hmore : (w.missing I).length ≤ more) {s : Saturated}
    (h : w.saturateFrom more rounds I = .ok s) : s.isSettled = true := by
  induction more generalizing rounds I with
  | zero =>
    rw [saturateFrom] at h
    obtain ⟨J, hJ, h⟩ := exists_of_bind_eq_ok h
    split at h
    · rw [← Except.ok.inj h]
    · next hsize =>
      have hlt := length_missing_saturationRound_lt hI hJ hsize
      omega
  | succ more ih =>
    rw [saturateFrom] at h
    obtain ⟨J, hJ, h⟩ := exists_of_bind_eq_ok h
    split at h
    · rw [← Except.ok.inj h]
    · next hsize =>
      have hlt := length_missing_saturationRound_lt hI hJ hsize
      exact ih (hI.saturationRound w.keepsTo_mentioned hJ) (by omega) h

/-- **A limit that is higher than the number of entries stops no saturation** of what is mentioned
before it has come to its end. -/
theorem isSettled_of_length_entries_lt {limit : Nat} (hlimit : w.entries.length < limit)
    (hI : I.LiesIn w.mentioned) {s : Saturated} (h : w.saturateFrom (limit - 1) 0 I = .ok s) :
    s.isSettled = true := by
  have hmissing : (w.missing I).length ≤ w.entries.length := List.length_filter_le _ _
  exact isSettled_of_length_missing_le hI (by omega) h

end World

end Ontology
