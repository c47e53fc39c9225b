import Mathlib.Logic.Equiv.Basic
import Mathlib.Order.Bounds.Defs
import Ontology.Proofs.Monotone
import Ontology.Proofs.Lists

/-!
# Saturation is a closure

What saturation arrives at when nothing is added any more is the least interpretation that holds
the start and is closed under all consequences.  How the ontology was stored plays no part in it,
unless a property and its inverse are declared to be each other's inverse: the older one of them
gives both their relation.

## Main definitions

* `World.IsClosed` — an interpretation has all its consequences, one condition for each kind.
* `World.IsComplementFree` — no definition of a class contains a complement.

## Main results

* `World.saturationRound_le` — a round stays below closed interpretations.
* `World.saturateFrom_invariant` — what every round preserves, all rounds together do.
* `World.isClosed_of_subset` — closed interpretations in terms of one step.
* `World.isClosed_of_saturationRound` — **a round that adds nothing shows that nothing is missing.**
* `Renaming.Reorders.isClosed` — closed interpretations of an ontology in another order.
* `World.saturate_isLeast` — **saturation computes the least closed interpretation, whatever the
  order in which the ontology is stored.**
-/

namespace Ontology

/-- What a rule adds. -/
theorem Rule.mem_fire {r : Rule} {I : Interpretation} {ds : List Derived}
    (h : r.fire I = .ok ds) {d : Derived} : d ∈ ds ↔ r.Derives I d := by
  rw [Rule.fire] at h
  obtain ⟨parts, hparts, h⟩ := exists_of_bind_eq_ok h
  rw [← Except.ok.inj h]
  have hpoint := mapM_eq_ok hparts
  simp only [List.mem_filterMap, List.mem_flatten, id]
  constructor
  · rintro ⟨_, ⟨part, hpart, hd⟩, rfl⟩
    obtain ⟨b, hb, hpart⟩ := exists_of_forall₂_right hpoint hpart
    obtain ⟨a, ha, had⟩ := exists_of_forall₂_right (mapM_eq_ok hpart) hd
    exact ⟨b, hb, a, ha, had⟩
  · rintro ⟨b, hb, a, ha, had⟩
    obtain ⟨part, hpart, hb'⟩ := exists_of_forall₂_left hpoint hb
    obtain ⟨d', hd', had'⟩ := exists_of_forall₂_left (mapM_eq_ok hb') ha
    rw [had] at had'
    exact ⟨_, ⟨part, hpart, hd'⟩, (Except.ok.inj had').symm⟩

/-- A rule fires if and only if no atom of its head fails for a match of its body. -/
theorem Rule.exists_fire_eq_ok_iff {r : Rule} {I : Interpretation} : (∃ ds, r.fire I = .ok ds) ↔
    ∀ b ∈ r.matches I, ∀ a ∈ r.head, ∃ d, a.instantiate r.name b = .ok d := by
  constructor
  · rintro ⟨ds, h⟩ b hb a ha
    rw [Rule.fire] at h
    obtain ⟨parts, hparts, -⟩ := exists_of_bind_eq_ok h
    obtain ⟨part, -, hpart⟩ := exists_of_forall₂_left (mapM_eq_ok hparts) hb
    obtain ⟨d, -, hd⟩ := exists_of_forall₂_left (mapM_eq_ok hpart) ha
    exact ⟨d, hd⟩
  · intro h
    obtain ⟨parts, hparts⟩ := exists_mapM_eq_ok fun b hb => exists_mapM_eq_ok (h b hb)
    exact ⟨_, by rw [Rule.fire, hparts]; rfl⟩

namespace World

/-! ### Closed interpretations -/

/-- An interpretation has all its consequences.  The marker that there is no value is not taken
as a value. -/
structure IsClosed (w : World) (J : Interpretation) : Prop where
  inverse : ∀ s p o q, ⟨s, p, .individual o⟩ ∈ J.facts → (w.getProperty p).inverseOf = some q →
    ⟨o, q, .individual s⟩ ∈ J.facts
  declared : ∀ s p o q, ⟨s, p, .individual o⟩ ∈ J.facts → (w.getProperty q).inverseOf = some p →
    ⟨o, q, .individual s⟩ ∈ J.facts
  symmetric : ∀ s p o, ⟨s, p, .individual o⟩ ∈ J.facts →
    (w.getProperty p).characteristics.symmetric = true → ⟨o, p, .individual s⟩ ∈ J.facts
  transitive : ∀ s p o x, ⟨s, p, .individual o⟩ ∈ J.facts → ⟨o, p, .individual x⟩ ∈ J.facts →
    (w.getProperty p).characteristics.transitive = true → ⟨s, p, .individual x⟩ ∈ J.facts
  parent : ∀ s p v q, ⟨s, p, v⟩ ∈ J.facts → v.isNothing = false →
    q ∈ (w.getProperty p).parents → ⟨s, q, v⟩ ∈ J.facts
  rule : ∀ r ∈ w.rules, ∀ d, r.Derives J d → J.Holds d
  superclass : ∀ i c d, (i, c) ∈ J.types → d ∈ (w.getClass c).parents → (i, d) ∈ J.types
  conjunct : ∀ i c e d, (i, c) ∈ J.types → e ∈ (w.getClass c).equivalentTo →
    d ∈ e.namedConjuncts → (i, d) ∈ J.types
  domain : ∀ s p v e c, ⟨s, p, v⟩ ∈ J.facts → v.isNothing = false →
    e ∈ (w.getProperty p).domain → c ∈ e.namedConjuncts → (s, c) ∈ J.types
  range : ∀ s p o e c, ⟨s, p, .individual o⟩ ∈ J.facts → e ∈ (w.getProperty p).rangeClasses →
    c ∈ e.namedConjuncts → (o, c) ∈ J.types
  definition : ∀ c e i, e ∈ (w.getClass c).equivalentTo → i ∈ w.candidates e →
    (w.assertedView J).member e i = .holds → (i, c) ∈ J.types

/-- No definition of a class contains a complement. -/
def IsComplementFree (w : World) : Prop :=
  ∀ c, ∀ e ∈ (w.getClass c).equivalentTo, e.isComplementFree = true

variable {w : World} {I J : Interpretation}

/-! ### Consequences of facts and types -/

theorem mem_inversesOf {p q : PropertyId} :
    q ∈ w.inversesOf p ↔ (w.getProperty q).inverseOf = some p := by
  rw [inversesOf, List.mem_filter, decide_eq_true_eq]
  refine and_iff_right_of_imp fun h => ?_
  cases hq : w.property? q with
  | none =>
    rw [getProperty, hq] at h
    simp at h
  | some d =>
    exact List.mem_map.mpr
      ⟨q.index, List.mem_range.mpr (Array.getElem?_eq_some_iff.mp hq).1, rfl⟩

theorem mem_definitions {c : ClassId} {e : ClassExpression} :
    (c, e) ∈ w.definitions ↔ e ∈ (w.getClass c).equivalentTo := by
  simp only [definitions, List.mem_flatMap, List.mem_map, Prod.mk.injEq, exists_eq_right_right]
  refine and_iff_right_of_imp fun h => ?_
  cases hc : w.class? c with
  | none =>
    rw [getClass, hc] at h
    simp at h
  | some d =>
    exact List.mem_map.mpr
      ⟨c.index, List.mem_range.mpr (Array.getElem?_eq_some_iff.mp hc).1, rfl⟩

/-- The consequences of a fact, one kind after the other. -/
theorem mem_consequencesOf {s : IndividualId} {p : PropertyId} {v : Value} {g : Fact} :
    g ∈ w.consequencesOf I ⟨s, p, v⟩ ↔
      (∃ o, v = .individual o ∧
        ((∃ q, (w.getProperty p).inverseOf = some q ∧ g = ⟨o, q, .individual s⟩) ∨
          (∃ q, (w.getProperty q).inverseOf = some p ∧ g = ⟨o, q, .individual s⟩) ∨
          ((w.getProperty p).characteristics.symmetric = true ∧ g = ⟨o, p, .individual s⟩) ∨
          (w.getProperty p).characteristics.transitive = true ∧
            ∃ x, ⟨o, p, .individual x⟩ ∈ I.facts ∧ g = ⟨s, p, .individual x⟩)) ∨
      ∃ q ∈ (w.getProperty p).parents, g = ⟨s, q, v⟩ := by
  simp only [consequencesOf, List.mem_append, List.mem_map, eq_comm (b := g)]
  refine or_congr ?_ Iff.rfl
  cases v with
  | expression e => simp
  | literal l => simp
  | individual o =>
    simp only [List.mem_append, List.mem_map, Option.mem_toList, mem_inversesOf,
      Value.individual.injEq, exists_eq_left', eq_comm (b := g), or_assoc]
    refine or_congr Iff.rfl (or_congr Iff.rfl (or_congr ?_ ?_))
    · split
      · next h => simp [h]
      · next h => simp [h]
    · split
      · next h =>
        simp only [List.mem_filterMap, Interpretation.mem_values, h, true_and]
        constructor
        · rintro ⟨u, hu, hg⟩
          cases u with
          | individual x => exact ⟨x, hu, (Option.some.inj hg).symm⟩
          | expression e => simp [Value.individual?] at hg
          | literal l => simp [Value.individual?] at hg
        · rintro ⟨x, hx, rfl⟩
          exact ⟨.individual x, hx, rfl⟩
      · next h => simp [h]

theorem mem_propertyConsequences {g : Fact} :
    g ∈ w.propertyConsequences I ↔
      ∃ f ∈ I.facts, f.value.isNothing = false ∧ g ∈ w.consequencesOf I f := by
  simp [propertyConsequences, and_assoc]

theorem mem_typesOfFact {s i : IndividualId} {p : PropertyId} {v : Value} {c : ClassId} :
    (i, c) ∈ w.typesOfFact ⟨s, p, v⟩ ↔
      (i = s ∧ ∃ e ∈ (w.getProperty p).domain, c ∈ e.namedConjuncts) ∨
      (v = .individual i ∧ ∃ e ∈ (w.getProperty p).rangeClasses, c ∈ e.namedConjuncts) := by
  simp only [typesOfFact, List.mem_append, List.mem_map, List.mem_flatMap, Prod.mk.injEq,
    exists_eq_right_right]
  refine or_congr (by rw [and_comm, eq_comm]) ?_
  cases v with
  | individual o => simp [and_comm]
  | expression e => simp
  | literal l => simp

theorem mem_typesOfType {i j : IndividualId} {c d : ClassId} :
    (j, d) ∈ w.typesOfType i c ↔ j = i ∧ (d ∈ (w.getClass c).parents ∨
      ∃ e ∈ (w.getClass c).equivalentTo, d ∈ e.namedConjuncts) := by
  simp only [typesOfType, List.mem_map, List.mem_append, List.mem_flatMap, Prod.mk.injEq,
    exists_eq_right_right]
  rw [and_comm, eq_comm]

theorem mem_membersOfDefinition {i : IndividualId} {c d : ClassId} {e : ClassExpression} :
    (i, d) ∈ w.membersOfDefinition I c e ↔ d = c ∧ i ∈ w.candidates e ∧ (i, c) ∉ I.types ∧
      (w.assertedView I).member e i = .holds := by
  simp only [membersOfDefinition, List.mem_map, List.mem_filter, Bool.and_eq_true,
    Bool.not_eq_true', Bool.eq_false_iff, Ne, Interpretation.hasType_iff, decide_eq_true_eq,
    Prod.mk.injEq]
  constructor
  · rintro ⟨j, ⟨hj, htype, hm⟩, rfl, rfl⟩
    exact ⟨rfl, hj, htype, hm⟩
  · rintro ⟨rfl, hi, htype, hm⟩
    exact ⟨i, ⟨hi, htype, hm⟩, rfl, rfl⟩

theorem mem_typeConsequences {t : IndividualId × ClassId} :
    t ∈ w.typeConsequences I ↔
      (∃ f ∈ I.facts, f.value.isNothing = false ∧ t ∈ w.typesOfFact f) ∨
      (∃ i c, (i, c) ∈ I.types ∧ t ∈ w.typesOfType i c) ∨
      ∃ c, ∃ e ∈ (w.getClass c).equivalentTo, t ∈ w.membersOfDefinition I c e := by
  simp only [typeConsequences, List.mem_append, List.mem_flatMap, List.mem_filter, Prod.exists,
    mem_definitions, Bool.not_eq_true', and_assoc, or_assoc]

/-- What all rules add. -/
theorem mem_fireRules {ds : List Derived} (h : w.fireRules I = .ok ds) {d : Derived} :
    d ∈ ds ↔ ∃ r ∈ w.rules, r.Derives I d := by
  rw [fireRules] at h
  obtain ⟨parts, hparts, h⟩ := exists_of_bind_eq_ok h
  rw [← Except.ok.inj h, List.mem_flatten]
  have hpoint := mapM_eq_ok hparts
  constructor
  · rintro ⟨part, hpart, hd⟩
    obtain ⟨r, hr, hfire⟩ := exists_of_forall₂_right hpoint hpart
    exact ⟨r, Array.mem_toList_iff.mp hr, (Rule.mem_fire hfire).mp hd⟩
  · rintro ⟨r, hr, hd⟩
    obtain ⟨part, hpart, hfire⟩ := exists_of_forall₂_left hpoint (Array.mem_toList_iff.mpr hr)
    exact ⟨part, hpart, (Rule.mem_fire hfire).mpr hd⟩

/-! ### Growth keeps consequences -/

theorem member_mono (hfree : w.IsComplementFree) (hIJ : I ≤ J) {c : ClassId}
    {e : ClassExpression} (he : e ∈ (w.getClass c).equivalentTo) {i : IndividualId}
    (h : (w.assertedView I).member e i = .holds) : (w.assertedView J).member e i = .holds := by
  have hle : I.rename .refl ≤ J := by rwa [I.rename_refl]
  have := ((Renaming.Reorders.refl w).assertedView (Renaming.keepsOlder_refl w) hle).member e i
    (hfree c e he) h
  rwa [e.rename_refl] at this

/-! ### Rounds -/

/-- The parts of a round. -/
theorem saturationRound_eq_ok {K : Interpretation} (h : w.saturationRound I = .ok K) :
    ∃ ds, w.fireRules (I.addFacts (w.propertyConsequences I)) = .ok ds ∧
      K = ((I.addFacts (w.propertyConsequences I)).addDerived ds).addTypes
        (w.typeConsequences ((I.addFacts (w.propertyConsequences I)).addDerived ds)) := by
  rw [saturationRound] at h
  obtain ⟨ds, hds, h⟩ := exists_of_bind_eq_ok h
  exact ⟨ds, hds, (Except.ok.inj h).symm⟩

theorem extends_saturationRound {K : Interpretation} (h : w.saturationRound I = .ok K) :
    I.Extends K := by
  obtain ⟨ds, -, rfl⟩ := saturationRound_eq_ok h
  exact ((Interpretation.extends_addFacts _ _).trans (Interpretation.extends_addDerived _ _)).trans
    (Interpretation.extends_addTypes _ _)

theorem IsClosed.propertyConsequences_subset (hJ : w.IsClosed J) (hIJ : I ≤ J) :
    w.propertyConsequences I ⊆ J.facts := by
  intro g hg
  obtain ⟨⟨s, p, v⟩, hf, hv, hg⟩ := mem_propertyConsequences.mp hg
  have hf := hIJ.1 hf
  -- one case for each kind of consequence
  rcases mem_consequencesOf.mp hg with ⟨o, rfl, hturned⟩ | ⟨q, hq, rfl⟩
  · rcases hturned with ⟨q, hq, rfl⟩ | ⟨q, hq, rfl⟩ | ⟨hp, rfl⟩ | ⟨hp, x, hx, rfl⟩
    · exact hJ.inverse s p o q hf hq
    · exact hJ.declared s p o q hf hq
    · exact hJ.symmetric s p o hf hp
    · exact hJ.transitive s p o x hf (hIJ.1 hx) hp
  · exact hJ.parent s p v q hf hv hq

theorem IsClosed.typeConsequences_subset (hJ : w.IsClosed J) (hIJ : I ≤ J)
    (hmember : ∀ c, ∀ e ∈ (w.getClass c).equivalentTo, ∀ i,
      (w.assertedView I).member e i = .holds → (w.assertedView J).member e i = .holds) :
    w.typeConsequences I ⊆ J.types := by
  rintro ⟨i, c⟩ ht
  rcases mem_typeConsequences.mp ht with ⟨⟨s, p, v⟩, hf, hv, ht⟩ | ⟨j, d, hj, ht⟩ | ⟨d, e, he, ht⟩
  · rcases mem_typesOfFact.mp ht with ⟨rfl, e, he, hc⟩ | ⟨rfl, e, he, hc⟩
    · exact hJ.domain _ p v e c (hIJ.1 hf) hv he hc
    · exact hJ.range s p i e c (hIJ.1 hf) he hc
  · obtain ⟨rfl, hc | ⟨e, he, hc⟩⟩ := mem_typesOfType.mp ht
    · exact hJ.superclass _ d c (hIJ.2 hj) hc
    · exact hJ.conjunct _ d e c (hIJ.2 hj) he hc
  · obtain ⟨rfl, hi, -, hm⟩ := mem_membersOfDefinition.mp ht
    exact hJ.definition _ e i he hi (hmember _ e he i hm)

/-- A round stays below closed interpretations. -/
theorem saturationRound_le (hfree : w.IsComplementFree) (hJ : w.IsClosed J) (hIJ : I ≤ J)
    {K : Interpretation} (h : w.saturationRound I = .ok K) : K ≤ J := by
  obtain ⟨ds, hds, rfl⟩ := saturationRound_eq_ok h
  have hfacts : I.addFacts (w.propertyConsequences I) ≤ J :=
    Interpretation.addFacts_le hIJ (hJ.propertyConsequences_subset hIJ)
  have hderived : (I.addFacts (w.propertyConsequences I)).addDerived ds ≤ J := by
    refine Interpretation.addDerived_le hfacts fun d hd => ?_
    obtain ⟨r, hr, hd⟩ := (mem_fireRules hds).mp hd
    exact hJ.rule r hr d (hd.mono hfacts)
  exact Interpretation.addTypes_le hderived (hJ.typeConsequences_subset hderived
    fun _ _ he _ hm => member_mono hfree hderived he hm)

/-- An interpretation is closed if it holds what follows from it in one step. -/
theorem isClosed_of_subset (hfacts : w.propertyConsequences I ⊆ I.facts)
    (hrules : ∀ r ∈ w.rules, ∀ d, r.Derives I d → I.Holds d)
    (htypes : w.typeConsequences I ⊆ I.types) : w.IsClosed I := by
  have hproperty : ∀ f ∈ I.facts, f.value.isNothing = false → ∀ g ∈ w.consequencesOf I f,
      g ∈ I.facts :=
    fun f hf hv g hg => hfacts (mem_propertyConsequences.mpr ⟨f, hf, hv, hg⟩)
  have hfact : ∀ f ∈ I.facts, f.value.isNothing = false → ∀ t ∈ w.typesOfFact f, t ∈ I.types :=
    fun f hf hv t ht => htypes (mem_typeConsequences.mpr (Or.inl ⟨f, hf, hv, ht⟩))
  have htype : ∀ i c, (i, c) ∈ I.types → ∀ t ∈ w.typesOfType i c, t ∈ I.types :=
    fun i c hi t ht => htypes (mem_typeConsequences.mpr (Or.inr (Or.inl ⟨i, c, hi, ht⟩)))
  exact
    { inverse := fun s p o q hf hq => hproperty _ hf rfl _
        (mem_consequencesOf.mpr (Or.inl ⟨o, rfl, Or.inl ⟨q, hq, rfl⟩⟩))
      declared := fun s p o q hf hq => hproperty _ hf rfl _
        (mem_consequencesOf.mpr (Or.inl ⟨o, rfl, Or.inr (Or.inl ⟨q, hq, rfl⟩)⟩))
      symmetric := fun s p o hf hp => hproperty _ hf rfl _
        (mem_consequencesOf.mpr (Or.inl ⟨o, rfl, Or.inr (Or.inr (Or.inl ⟨hp, rfl⟩))⟩))
      transitive := fun s p o x hf hx hp => hproperty _ hf rfl _
        (mem_consequencesOf.mpr (Or.inl ⟨o, rfl, Or.inr (Or.inr (Or.inr ⟨hp, x, hx, rfl⟩))⟩))
      parent := fun s p v q hf hv hq => hproperty _ hf hv _
        (mem_consequencesOf.mpr (Or.inr ⟨q, hq, rfl⟩))
      rule := hrules
      superclass := fun i c d hi hd => htype i c hi _ (mem_typesOfType.mpr ⟨rfl, Or.inl hd⟩)
      conjunct := fun i c e d hi he hd => htype i c hi _
        (mem_typesOfType.mpr ⟨rfl, Or.inr ⟨e, he, hd⟩⟩)
      domain := fun s p v e c hf hv he hc => hfact _ hf hv _
        (mem_typesOfFact.mpr (Or.inl ⟨rfl, e, he, hc⟩))
      range := fun s p o e c hf he hc => hfact _ hf rfl _
        (mem_typesOfFact.mpr (Or.inr ⟨rfl, e, he, hc⟩))
      definition := fun c e i he hi hm => by
        by_cases hc : (i, c) ∈ I.types
        · exact hc
        · exact htypes (mem_typeConsequences.mpr
            (Or.inr (Or.inr ⟨c, e, he, mem_membersOfDefinition.mpr ⟨rfl, hi, hc, hm⟩⟩))) }

/-- **A round that adds nothing shows that nothing is missing.** -/
theorem isClosed_of_saturationRound {K : Interpretation} (h : w.saturationRound I = .ok K)
    (hKI : K = I) : w.IsClosed I := by
  obtain ⟨ds, hds, hK⟩ := saturationRound_eq_ok h
  -- none of the three parts of the round added anything
  have hderivedK : ((I.addFacts (w.propertyConsequences I)).addDerived ds).Extends K :=
    hK ▸ Interpretation.extends_addTypes _ _
  have hfactsK : (I.addFacts (w.propertyConsequences I)).Extends K :=
    (Interpretation.extends_addDerived _ _).trans hderivedK
  rw [hKI] at hK hderivedK hfactsK
  have hfacts : I.addFacts (w.propertyConsequences I) = I :=
    (Interpretation.extends_addFacts _ _).antisymm hfactsK
  rw [hfacts] at hds hK hderivedK
  have hderived : I.addDerived ds = I :=
    (Interpretation.extends_addDerived _ _).antisymm hderivedK
  rw [hderived] at hK
  refine isClosed_of_subset ?_ ?_ ?_
  · intro g hg
    rw [← hfacts, Interpretation.mem_addFacts]
    exact Or.inr hg
  · intro r hr d hd
    rw [← hderived, Interpretation.holds_addDerived]
    exact Or.inr ((mem_fireRules hds).mpr ⟨r, hr, hd⟩)
  · intro t ht
    rw [hK, Interpretation.mem_addTypes]
    exact Or.inr ht

/-! ### Saturation -/

/-- The first of several rounds, and what it leaves to the others. -/
theorem saturateFrom_eq_ok {more rounds : Nat} {s : Saturated}
    (h : w.saturateFrom more rounds I = .ok s) :
    ∃ K, w.saturationRound I = .ok K ∧
      (K = s.interpretation ∧ (s.isSettled = true → K = I) ∨
        ∃ fewer, more = fewer + 1 ∧ w.saturateFrom fewer (rounds + 1) K = .ok s) := by
  rw [saturateFrom] at h
  obtain ⟨K, hK, h⟩ := exists_of_bind_eq_ok h
  refine ⟨K, hK, ?_⟩
  split at h
  · next hsize =>
    rw [← Except.ok.inj h]
    exact Or.inl ⟨rfl, fun _ => (extends_saturationRound hK).eq_of_size hsize⟩
  · cases more with
    | zero =>
      rw [← Except.ok.inj h]
      exact Or.inl ⟨rfl, fun hs => by simp at hs⟩
    | succ fewer => exact Or.inr ⟨fewer, rfl, h⟩

/-- **What every round preserves, all rounds together do.** -/
theorem saturateFrom_invariant {P : Interpretation → Prop}
    (hround : ∀ I K, P I → w.saturationRound I = .ok K → P K) (hI : P I) {more rounds : Nat}
    {s : Saturated} (h : w.saturateFrom more rounds I = .ok s) : P s.interpretation := by
  -- either the first round is the last one, or the others start from what it added
  induction more using Nat.strongRecOn generalizing rounds I with
  | ind more ih =>
    obtain ⟨K, hK, ⟨rfl, -⟩ | ⟨fewer, rfl, hrest⟩⟩ := saturateFrom_eq_ok h
    · exact hround I s.interpretation hI hK
    · exact ih fewer (Nat.lt_succ_self _) (hround I K hI hK) hrest

theorem extends_saturateFrom {more rounds : Nat} {s : Saturated}
    (h : w.saturateFrom more rounds I = .ok s) : I.Extends s.interpretation :=
  saturateFrom_invariant (fun _ _ hJ hK => hJ.trans (extends_saturationRound hK)) (.refl I) h

/-- What is arrived at when the last round added nothing goes through another round unchanged. -/
theorem saturationRound_of_isSettled {more rounds : Nat} {s : Saturated}
    (h : w.saturateFrom more rounds I = .ok s) (hs : s.isSettled = true) :
    w.saturationRound s.interpretation = .ok s.interpretation := by
  induction more using Nat.strongRecOn generalizing rounds I with
  | ind more ih =>
    obtain ⟨K, hK, ⟨rfl, hsettled⟩ | ⟨fewer, rfl, hrest⟩⟩ := saturateFrom_eq_ok h
    · rw [hsettled hs] at hK ⊢
      exact hK
    · exact ih fewer (Nat.lt_succ_self _) hrest

/-- What rounds arrive at is below each closed interpretation that holds the start. -/
theorem saturateFrom_le (hfree : w.IsComplementFree) {more rounds : Nat} {s : Saturated}
    (h : w.saturateFrom more rounds I = .ok s) (hJ : w.IsClosed J) (hIJ : I ≤ J) :
    s.interpretation ≤ J :=
  saturateFrom_invariant (fun _ _ hIJ hK => saturationRound_le hfree hJ hIJ hK) hIJ h

theorem saturate_eq_ok {n : Nat} {s : Saturated} (h : w.saturate n I = .ok s) :
    w.saturateFrom (n - 1) 0 I = .ok s := by
  rw [saturate] at h
  obtain ⟨s', hs, h⟩ := exists_of_bind_eq_ok h
  split at h
  · simp at h
  · rw [← Except.ok.inj h]
    exact hs

end World

/-! ### Other orders -/

mutual

theorem ClassExpression.namedConjuncts_rename (ρ : Renaming) :
    ∀ e : ClassExpression, (e.rename ρ).namedConjuncts = e.namedConjuncts.map ρ.onClass
  | .thing | .nothing | .named _ | .or _ | .not _ | .oneOf _ | .restriction _ _ _ => rfl
  | .and parts => ClassExpression.namedConjunctsOfParts_rename ρ parts
termination_by structural e => e

theorem ClassExpression.namedConjunctsOfParts_rename (ρ : Renaming) :
    ∀ parts : List ClassExpression, ClassExpression.namedConjunctsOfParts
      (ClassExpression.renameParts ρ parts)
        = (ClassExpression.namedConjunctsOfParts parts).map ρ.onClass
  | [] => rfl
  | part :: rest => by
    rw [ClassExpression.renameParts, ClassExpression.namedConjunctsOfParts,
      ClassExpression.namedConjunctsOfParts, ClassExpression.namedConjuncts_rename ρ part,
      ClassExpression.namedConjunctsOfParts_rename ρ rest, List.map_append]
termination_by structural parts => parts

end

namespace Renaming

variable {ρ : Renaming} {w w' : World} {K : Interpretation}

theorem mem_namedConjuncts_rename {e : ClassExpression} {c : ClassId}
    (h : c ∈ e.namedConjuncts) : ρ.onClass c ∈ (e.rename ρ).namedConjuncts := by
  rw [e.namedConjuncts_rename]
  exact List.mem_map_of_mem h

theorem Reorders.mem_equivalentTo (h : ρ.Reorders w w') {c : ClassId} {e : ClassExpression}
    (he : e ∈ (w.getClass c).equivalentTo) :
    e.rename ρ ∈ (w'.getClass (ρ.onClass c)).equivalentTo := by
  rw [h.getClass]
  exact List.mem_map_of_mem he

theorem Reorders.isComplementFree (h : ρ.Reorders w w') (hfree : w.IsComplementFree) :
    w'.IsComplementFree := by
  intro c e he
  have := hfree (ρ.symm.onClass c) (e.rename ρ.symm) (h.symm.mem_equivalentTo he)
  rwa [e.isComplementFree_rename] at this

theorem Reorders.mem_candidates (h : ρ.Reorders w w') {e : ClassExpression} {i : IndividualId}
    (hi : i ∈ w.candidates e) : ρ.onIndividual i ∈ w'.candidates (e.rename ρ) := by
  cases e with
  | oneOf members => exact List.mem_map_of_mem hi
  | _ => exact h.mem_individualIds.mpr hi

/-- **A closed interpretation of an ontology in another order is one of the ontology itself.** -/
theorem Reorders.isClosed (h : ρ.Reorders w w') (hold : ρ.KeepsOlder w)
    (hfree : w.IsComplementFree) (hK : w'.IsClosed K) : w.IsClosed (K.rename ρ.symm) where
  inverse := fun s p o q hf hq => by
    rw [Interpretation.mem_facts_rename_symm] at hf ⊢
    exact hK.inverse _ _ _ _ hf (h.inverseOf_eq.mpr hq)
  declared := fun s p o q hf hq => by
    rw [Interpretation.mem_facts_rename_symm] at hf ⊢
    exact hK.declared _ _ _ _ hf (h.inverseOf_eq.mpr hq)
  symmetric := fun s p o hf hp => by
    rw [Interpretation.mem_facts_rename_symm] at hf ⊢
    exact hK.symmetric _ _ _ hf (by rwa [h.getProperty])
  transitive := fun s p o x hf hx hp => by
    rw [Interpretation.mem_facts_rename_symm] at hf hx ⊢
    exact hK.transitive _ _ _ _ hf hx (by rwa [h.getProperty])
  parent := fun s p v q hf hv hq => by
    rw [Interpretation.mem_facts_rename_symm] at hf ⊢
    refine hK.parent _ _ _ _ hf (by rwa [v.isNothing_rename]) ?_
    rw [h.getProperty]
    exact List.mem_map_of_mem hq
  rule := fun r hr d hd => by
    rw [Interpretation.holds_rename_symm]
    exact hK.rule _ ((h.rules r).mpr hr) _
      (hd.rename (Interpretation.le_rename_symm_iff.mp (le_refl _)))
  superclass := fun i c d hi hd => by
    rw [Interpretation.mem_types_rename_symm] at hi ⊢
    refine hK.superclass _ _ _ hi ?_
    rw [h.getClass, Class.parents_rename]
    exact List.mem_map_of_mem hd
  conjunct := fun i c e d hi he hd => by
    rw [Interpretation.mem_types_rename_symm] at hi ⊢
    exact hK.conjunct _ _ _ _ hi (h.mem_equivalentTo he) (mem_namedConjuncts_rename hd)
  domain := fun s p v e c hf hv he hc => by
    rw [Interpretation.mem_facts_rename_symm] at hf
    rw [Interpretation.mem_types_rename_symm]
    refine hK.domain _ _ _ (e.rename ρ) _ hf (by rwa [v.isNothing_rename]) ?_
      (mem_namedConjuncts_rename hc)
    rw [h.getProperty]
    exact List.mem_map_of_mem he
  range := fun s p o e c hf he hc => by
    rw [Interpretation.mem_facts_rename_symm] at hf
    rw [Interpretation.mem_types_rename_symm]
    refine hK.range _ _ _ (e.rename ρ) _ hf ?_ (mem_namedConjuncts_rename hc)
    rw [h.getProperty, Property.rangeClasses_rename]
    exact List.mem_map_of_mem he
  definition := fun c e i he hi hm => by
    rw [Interpretation.mem_types_rename_symm]
    refine hK.definition _ _ _ (h.mem_equivalentTo he) (h.mem_candidates hi) ?_
    exact (h.assertedView hold (Interpretation.le_rename_symm_iff.mp (le_refl _))).member e i
      (hfree c e he) hm

end Renaming

namespace World

/-- **Saturation computes the least closed interpretation above the start, whatever the order in
which the ontology is stored**: if its definitions contain no complement and the last round added
nothing, what is known at the end is the least that holds the start and has all consequences; with
the entities at other places, and with what is known at the start in another order, the same is
known at the end. -/
theorem saturate_isLeast {w : World} (hfree : w.IsComplementFree) {n : Nat} {I : Interpretation}
    {s : Saturated} (h : w.saturate n I = .ok s) (hs : s.isSettled = true) :
    IsLeast {J | I ≤ J ∧ w.IsClosed J} s.interpretation ∧
      ∀ (ρ : Renaming) (w' : World) (n' : Nat) (I' : Interpretation) (s' : Saturated),
        ρ.Reorders w w' → ρ.KeepsOlder w → I.rename ρ ≤ I' → I' ≤ I.rename ρ →
        w'.saturate n' I' = .ok s' → s'.isSettled = true →
        s.interpretation.rename ρ ≤ s'.interpretation ∧
          s'.interpretation ≤ s.interpretation.rename ρ := by
  have hle := (extends_saturateFrom (saturate_eq_ok h)).le
  have hleast : ∀ J, w.IsClosed J → I ≤ J → s.interpretation ≤ J :=
    fun J => saturateFrom_le hfree (saturate_eq_ok h)
  have hround := saturationRound_of_isSettled (saturate_eq_ok h) hs
  have hclosed := isClosed_of_saturationRound hround rfl
  refine ⟨⟨⟨hle, hclosed⟩, fun J hJ => hleast J hJ.2 hJ.1⟩, ?_⟩
  intro ρ w' n' I' s' hρ hold hI hI' h' hs'
  have hle' := (extends_saturateFrom (saturate_eq_ok h')).le
  have hfree' := hρ.isComplementFree hfree
  have hclosed' :=
    isClosed_of_saturationRound (saturationRound_of_isSettled (saturate_eq_ok h') hs') rfl
  constructor
  · -- what the other order arrives at, put back, is closed and holds the start
    rw [← Interpretation.le_rename_symm_iff]
    refine hleast _ (hρ.isClosed hold hfree hclosed') ?_
    rw [Interpretation.le_rename_symm_iff]
    exact le_trans hI hle'
  · refine saturateFrom_le hfree' (saturate_eq_ok h') ?_
      (le_trans hI' (Interpretation.rename_mono hle))
    exact hρ.symm.isClosed (hold.symm hρ) hfree' hclosed

/-! ### An older and a younger property -/

/-- A property at one of the first two places and an inverse of it that implies it at the other
one; the class holds what the property relates to anything. -/
def related (p q : PropertyId) (isMutual : Bool) : World where
  iri := ""
  classes := #[{
    name := "Related"
    equivalentTo := [.restriction (.named p) .some (.expression .thing)] }]
  properties :=
    let property : Property :=
      { name := "p", kind := .object, inverseOf := if isMutual then some q else none }
    let inverse : Property :=
      { name := "q", kind := .object, inverseOf := some p, parents := [p] }
    if p.index < q.index then #[property, inverse] else #[inverse, property]
  individuals := #[{ name := "s", isA := [.thing] }]

/-- The two properties change places. -/
def exchange : Renaming := ⟨Equiv.refl _, Equiv.swap ⟨0⟩ ⟨1⟩, Equiv.refl _⟩

theorem exchange_reorders (isMutual : Bool) :
    exchange.Reorders (related ⟨0⟩ ⟨1⟩ isMutual) (related ⟨1⟩ ⟨0⟩ isMutual) where
  class? := by
    rintro ⟨_ | n⟩
    · rfl
    · rfl
  property? := by
    rintro ⟨_ | _ | n⟩
    · cases isMutual <;> rfl
    · cases isMutual <;> rfl
    · rfl
  individual? := fun _ => rfl
  rules := by simp [related]

theorem isComplementFree_related (p q : PropertyId) (isMutual : Bool) :
    (related p q isMutual).IsComplementFree := by
  rintro ⟨_ | n⟩ e he
  · rw [List.mem_singleton.mp he]
    rfl
  · simp [getClass, class?, related] at he

/-- The individual has a class as a value of a property. -/
def hasClassValue (p : PropertyId) : Interpretation where
  facts := [⟨⟨0⟩, p, .expression .thing⟩]

/-- The same is known, and that the individual belongs to the class of those that are related. -/
def isRelated (p : PropertyId) : Interpretation where
  facts := [⟨⟨0⟩, p, .expression .thing⟩]
  types := [(⟨0⟩, ⟨0⟩)]

/-- A property that is not declared to be the inverse of its inverse may change places with it. -/
theorem saturate_related_isLeast :
    IsLeast {J | hasClassValue ⟨0⟩ ≤ J ∧ (related ⟨0⟩ ⟨1⟩ false).IsClosed J} (isRelated ⟨0⟩) ∧
      (isRelated ⟨0⟩).rename exchange ≤ isRelated ⟨1⟩ ∧
      isRelated ⟨1⟩ ≤ (isRelated ⟨0⟩).rename exchange := by
  have holder : (related ⟨0⟩ ⟨1⟩ false).saturate 10 (hasClassValue ⟨0⟩)
      = .ok ⟨isRelated ⟨0⟩, 2, true⟩ := by decide
  have hyounger : (related ⟨1⟩ ⟨0⟩ false).saturate 10 (hasClassValue ⟨1⟩)
      = .ok ⟨isRelated ⟨1⟩, 2, true⟩ := by decide
  have hkeeps : exchange.KeepsOlder (related ⟨0⟩ ⟨1⟩ false) := by
    rintro ⟨_ | _ | n⟩ q hp hq
    · simp [getProperty, property?, related] at hp
    · obtain rfl : q = ⟨0⟩ := by simpa [getProperty, property?, related, eq_comm] using hp
      simp [getProperty, property?, related] at hq
    · simp [getProperty, property?, related] at hp
  obtain ⟨hleast, horder⟩ := saturate_isLeast (isComplementFree_related ⟨0⟩ ⟨1⟩ false) holder rfl
  exact ⟨hleast, horder exchange _ 10 _ _ (exchange_reorders false) hkeeps
    (by decide) (by decide) hyounger rfl⟩

/-- **Of a property and an inverse declared mutually the order matters**: the younger one is read as
the older one backwards, and only individuals have relations read backwards.  Apart from that, the
marker that there is no value is not passed on to more general properties. -/
theorem saturate_related_exchange :
    (related ⟨0⟩ ⟨1⟩ true).IsComplementFree ∧
      exchange.Reorders (related ⟨0⟩ ⟨1⟩ true) (related ⟨1⟩ ⟨0⟩ true) ∧
      (related ⟨0⟩ ⟨1⟩ true).saturate 10 (hasClassValue ⟨0⟩)
        = .ok ⟨isRelated ⟨0⟩, 2, true⟩ ∧
      (related ⟨1⟩ ⟨0⟩ true).saturate 10 ((hasClassValue ⟨0⟩).rename exchange)
        = .ok ⟨(hasClassValue ⟨0⟩).rename exchange, 1, true⟩ ∧
      ¬ (isRelated ⟨0⟩).rename exchange ≤ (hasClassValue ⟨0⟩).rename exchange ∧
      ⟨0⟩ ∈ ((related ⟨0⟩ ⟨1⟩ true).getProperty ⟨1⟩).parents ∧
      (related ⟨0⟩ ⟨1⟩ true).saturate 10 { facts := [⟨⟨0⟩, ⟨1⟩, .nothing⟩] }
        = .ok ⟨{ facts := [⟨⟨0⟩, ⟨1⟩, .nothing⟩] }, 1, true⟩ := by
  refine ⟨isComplementFree_related _ _ _, exchange_reorders true, ?_, ?_, ?_, ?_, ?_⟩
  all_goals decide

end World

end Ontology
