import Mathlib.Order.Antisymmetrization
import Ontology.Proofs.Course
import Ontology.Proofs.Inferred

/-!
# Interpretations with the same contents

Two interpretations may hold the same facts and types in different orders, and two ontologies may
differ in what was inferred only.  Reasoning makes no difference between them: the same expressions
hold, the same consequences follow, and a search has the same solutions.

## Main definitions

* `SearchProblem.Agrees` — two search problems with the same variables and constraints.

## Main results

* `World.IsClosed.of_antisymmRel` — the same contents are closed or not.
* `SearchProblem.Agrees.solve` — **problems that agree have the same answer.**
* `World.searchProblem_agrees` — **what is to be decided depends on what is stated and on what is
  known.**
-/

namespace Ontology

namespace World

variable {w w' : World} {I J : Interpretation}

/-! ### Contents -/

theorem mem_facts_of_antisymmRel (h : AntisymmRel (· ≤ ·) I J) {f : Fact} :
    f ∈ I.facts ↔ f ∈ J.facts :=
  ⟨fun hf => h.1.1 hf, fun hf => h.2.1 hf⟩

theorem mem_types_of_antisymmRel (h : AntisymmRel (· ≤ ·) I J) {t : IndividualId × ClassId} :
    t ∈ I.types ↔ t ∈ J.types :=
  ⟨fun ht => h.1.2 ht, fun ht => h.2.2 ht⟩

theorem hasType_of_antisymmRel (h : AntisymmRel (· ≤ ·) I J) (i : IndividualId) (c : ClassId) :
    I.hasType i c = J.hasType i c := by
  rw [Bool.eq_iff_iff, Interpretation.hasType_iff, Interpretation.hasType_iff,
    mem_types_of_antisymmRel h]

theorem mem_related_of_antisymmRel (h : AntisymmRel (· ≤ ·) I J) {r : PropertyExpression}
    {i : IndividualId} {x : Value} : x ∈ I.related r i ↔ x ∈ J.related r i :=
  ⟨Interpretation.mem_related_mono h.1, Interpretation.mem_related_mono h.2⟩

theorem isEmpty_related_of_antisymmRel (h : AntisymmRel (· ≤ ·) I J) (r : PropertyExpression)
    (i : IndividualId) : (I.related r i).isEmpty = (J.related r i).isEmpty := by
  rw [Bool.eq_iff_iff, List.isEmpty_iff, List.isEmpty_iff, List.eq_nil_iff_forall_not_mem,
    List.eq_nil_iff_forall_not_mem]
  exact forall_congr' fun x => not_congr (mem_related_of_antisymmRel h)

theorem isClosed_of_antisymmRel (h : AntisymmRel (· ≤ ·) I J) (p : PropertyId)
    (s : IndividualId) : I.isClosed p s = J.isClosed p s := by
  rw [Bool.eq_iff_iff]
  simp only [Interpretation.isClosed, List.any_eq_true, Interpretation.mem_values,
    mem_facts_of_antisymmRel h]

theorem isComplete_of_antisymmRel (h : AntisymmRel (· ≤ ·) I J) (r : PropertyExpression)
    (s : IndividualId) : w.isComplete I r s = w.isComplete J r s := by
  simp only [isComplete, isClosed_of_antisymmRel h]

/-! ### Evaluation -/

theorem assertedSuccessors_approximates (h : AntisymmRel (· ≤ ·) I J) (r : PropertyExpression)
    (i : IndividualId) :
    (w.assertedSuccessors I r i).Approximates (w.assertedSuccessors J r i) where
  known := fun x hx => (mem_related_of_antisymmRel h).mp hx
  isOpen := by
    simp only [assertedSuccessors, isComplete_of_antisymmRel h, isEmpty_related_of_antisymmRel h]
    exact id
  known_new := fun _ x hx => Or.inl ((mem_related_of_antisymmRel h).mpr hx)
  possible := fun _ _ hi => hi

/-- **The same expressions hold.** -/
theorem member_of_antisymmRel (h : AntisymmRel (· ≤ ·) I J) (e : ClassExpression)
    (i : IndividualId) : (w.assertedView I).member e i = (w.assertedView J).member e i := by
  have happrox : ∀ {I J : Interpretation}, AntisymmRel (· ≤ ·) I J →
      ((w.assertedView I).member e i).Approximates ((w.assertedView J).member e i) :=
    fun h => View.member_approximates e i
      ⟨fun c _ i => hasType_of_antisymmRel h i c,
        fun r _ i => assertedSuccessors_approximates h (w.relation r) i⟩
  exact (happrox h).antisymm (happrox h.symm)

/-! ### Closed interpretations -/

/-- **The same contents are closed or not.** -/
theorem IsClosed.of_antisymmRel (h : w.IsClosed I) (hIJ : AntisymmRel (· ≤ ·) I J) :
    w.IsClosed J where
  inverse := fun s p o q hf hq => hIJ.1.1 (h.inverse s p o q (hIJ.2.1 hf) hq)
  declared := fun s p o q hf hq => hIJ.1.1 (h.declared s p o q (hIJ.2.1 hf) hq)
  symmetric := fun s p o hf hp => hIJ.1.1 (h.symmetric s p o (hIJ.2.1 hf) hp)
  transitive := fun s p o x hf hx hp =>
    hIJ.1.1 (h.transitive s p o x (hIJ.2.1 hf) (hIJ.2.1 hx) hp)
  parent := fun s p v q hf hv hq => hIJ.1.1 (h.parent s p v q (hIJ.2.1 hf) hv hq)
  rule := fun r hr d hd => (h.rule r hr d (hd.mono hIJ.2)).mono hIJ.1
  superclass := fun i c d hi hd => hIJ.1.2 (h.superclass i c d (hIJ.2.2 hi) hd)
  conjunct := fun i c e d hi he hd => hIJ.1.2 (h.conjunct i c e d (hIJ.2.2 hi) he hd)
  domain := fun s p v e c hf hv he hc => hIJ.1.2 (h.domain s p v e c (hIJ.2.1 hf) hv he hc)
  range := fun s p o e c hf he hc => hIJ.1.2 (h.range s p o e c (hIJ.2.1 hf) he hc)
  definition := fun c e i he hi hm => by
    rw [← member_of_antisymmRel hIJ] at hm
    exact hIJ.1.2 (h.definition c e i he hi hm)

theorem StatesSame.candidates (hw : w.StatesSame w') (e : ClassExpression) :
    w'.candidates e = w.candidates e := by
  cases e with
  | oneOf members => rfl
  | _ => exact hw.individualIds

/-- Consequences depend on what is stated only. -/
theorem IsClosed.of_statesSame (h : w.IsClosed I) (hw : w.StatesSame w') : w'.IsClosed I := by
  have hcandidates := hw.candidates
  rw [hw.others] at hcandidates ⊢
  refine ⟨h.inverse, h.declared, h.symmetric, h.transitive, h.parent, h.rule, h.superclass,
    h.conjunct, h.domain, h.range, fun c e i he hi hm => h.definition c e i he ?_ hm⟩
  rwa [hcandidates] at hi

/-! ### Rules -/

theorem exists_fireRules_iff : (∃ ds, w.fireRules I = .ok ds) ↔
    ∀ r ∈ w.rules, ∃ ds, r.fire I = .ok ds := by
  constructor
  · rintro ⟨ds, h⟩ r hr
    rw [fireRules] at h
    obtain ⟨parts, hparts, -⟩ := exists_of_bind_eq_ok h
    obtain ⟨part, -, hpart⟩ :=
      exists_of_forall₂_left (mapM_eq_ok hparts) (Array.mem_toList_iff.mpr hr)
    exact ⟨part, hpart⟩
  · intro h
    obtain ⟨parts, hparts⟩ := exists_mapM_eq_ok fun r hr => h r (Array.mem_toList_iff.mp hr)
    exact ⟨_, by rw [fireRules, hparts]; rfl⟩

/-- Rules that fire go on firing if less is known. -/
theorem exists_fireRules_anti (hIJ : I ≤ J) (h : ∃ ds, w.fireRules J = .ok ds) :
    ∃ ds, w.fireRules I = .ok ds := by
  rw [exists_fireRules_iff] at h ⊢
  intro r hr
  have hJ := Rule.exists_fire_eq_ok_iff.mp (h r hr)
  exact Rule.exists_fire_eq_ok_iff.mpr fun b hb => hJ b (Rule.mem_matches_mono hIJ hb)

end World

/-! ### Search problems -/

namespace SearchProblem

/-- Two search problems have the same variables, the same constraints in any order, and the same
decisions satisfy them. -/
structure Agrees (p q : SearchProblem) : Prop where
  start : q.start = p.start
  constraints : ∀ c, c ∈ q.constraints ↔ c ∈ p.constraints
  evaluate : ∀ ds c, q.evaluate ds c = p.evaluate ds c

namespace Agrees

variable {p q r : SearchProblem}

theorem trans (h : p.Agrees q) (h' : q.Agrees r) : p.Agrees r where
  start := h'.start.trans h.start
  constraints := fun c => (h'.constraints c).trans (h.constraints c)
  evaluate := fun ds c => (h'.evaluate ds c).trans (h.evaluate ds c)

theorem assigns_iff (h : p.Agrees q) {m : Model} {v : Variable} {x : IndividualId} :
    q.Assigns m v x ↔ p.Assigns m v x := by
  rw [Assigns, Assigns, h.start]

/-- Problems that agree have the same solutions. -/
theorem isSolution_iff (h : p.Agrees q) {m : Model} : q.IsSolution m ↔ p.IsSolution m := by
  constructor
  · rintro ⟨hfits, hdistinct, hadmitted⟩
    refine ⟨h.start ▸ hfits, ?_, ?_⟩
    · exact fun v v' x hv hr hx hx' =>
        hdistinct v v' x hv hr (h.assigns_iff.mpr hx) (h.assigns_iff.mpr hx')
    · intro c hc
      rw [← h.evaluate, ← h.start]
      exact hadmitted c ((h.constraints c).mpr hc)
  · rintro ⟨hfits, hdistinct, hadmitted⟩
    refine ⟨h.start ▸ hfits, ?_, ?_⟩
    · exact fun v v' x hv hr hx hx' =>
        hdistinct v v' x hv hr (h.assigns_iff.mp hx) (h.assigns_iff.mp hx')
    · intro c hc
      rw [h.evaluate, h.start]
      exact hadmitted c ((h.constraints c).mp hc)

theorem isCommon_iff (h : p.Agrees q) {v : Variable} {x : IndividualId} :
    q.IsCommon v x ↔ p.IsCommon v x := by
  simp only [IsCommon, h.start, h.isSolution_iff, h.assigns_iff]

/-- **Problems that agree have the same answer**, with what their models have in common in any
order. -/
theorem solve (h : p.Agrees q) (hp : p.WellFormed) (hq : q.WellFormed) {maxModels : Nat}
    {o : Outcome} (ho : p.solve maxModels = .ok o) :
    ∃ entailed, q.solve maxModels = .ok { o with entailed } ∧
      ∀ f, f ∈ entailed ↔ f ∈ o.entailed := by
  rcases solve_eq hp maxModels with ⟨e, he, -⟩ | ⟨entailed, hok, ⟨m, hm⟩, hfull, hcommon⟩
  · rw [ho] at he
    simp at he
  rw [ho, Except.ok.injEq] at hok
  subst hok
  rcases solve_eq hq maxModels with ⟨e, -, hnone⟩ | ⟨entailed', hok', -, hfull', hcommon'⟩
  · exact absurd (h.isSolution_iff.mpr hm) (hnone m)
  have hsolutions : {m | q.IsSolution m} = {m | p.IsSolution m} :=
    Set.ext fun m => h.isSolution_iff
  rw [hsolutions] at hok' hfull' hcommon'
  refine ⟨entailed', hok', fun f => ?_⟩
  rcases Nat.lt_or_ge {m | p.IsSolution m}.ncard (max maxModels 1) with hlt | hge
  · rw [hcommon' hlt, hcommon hlt]
    simp only [h.isCommon_iff]
  · rw [hfull' hge, hfull hge]

end Agrees

end SearchProblem

namespace World

variable {w w' : World} {I J : Interpretation}

theorem certainMembers_of_antisymmRel (h : AntisymmRel (· ≤ ·) I J) (es : List ClassExpression) :
    w.certainMembers I es = w.certainMembers J es := by
  simp only [certainMembers, member_of_antisymmRel h]

theorem decisions_of_antisymmRel (h : AntisymmRel (· ≤ ·) I J) (r : PropertyExpression) :
    w.decisions I r = w.decisions J r := by
  simp only [decisions, openSubjects, possibleValues, certainMembers_of_antisymmRel h,
    isComplete_of_antisymmRel h, isEmpty_related_of_antisymmRel h]

theorem mem_constraints_of_antisymmRel (h : AntisymmRel (· ≤ ·) I J) {c : Constraint} :
    c ∈ w.constraints I ↔ c ∈ w.constraints J :=
  ⟨fun hc => constraints_mono h.1 hc, fun hc => constraints_mono h.2 hc⟩

theorem searchedRelations_of_antisymmRel (h : AntisymmRel (· ≤ ·) I J) :
    w.searchedRelations (w.constraints I) = w.searchedRelations (w.constraints J) := by
  have hreads : ∀ p : PropertyId, (w.constraints I).any (p ∈ ·.reads)
      = (w.constraints J).any (p ∈ ·.reads) := by
    intro p
    rw [Bool.eq_iff_iff, List.any_eq_true, List.any_eq_true]
    simp only [mem_constraints_of_antisymmRel h]
  simp only [searchedRelations, hreads]

theorem relationSuccessors_of_antisymmRel (h : AntisymmRel (· ≤ ·) I J) (ds : List Decision)
    (r : PropertyExpression) (i : IndividualId) :
    ((w.searchProblem I).relationSuccessors ds r i).Approximates
      ((w.searchProblem J).relationSuccessors ds r i) := by
  have hsearched : (w.searchProblem I).searched = (w.searchProblem J).searched :=
    searchedRelations_of_antisymmRel h
  have hrelated : ∀ x, x ∈ I.related r i ↔ x ∈ J.related r i :=
    fun x => mem_related_of_antisymmRel h
  simp only [SearchProblem.relationSuccessors, ← hsearched]
  split
  · split
    · refine ⟨?_, fun _ => rfl, ?_, fun _ _ hi => hi⟩ <;> grind [searchProblem]
    · refine ⟨?_, fun _ => rfl, ?_, fun _ _ hi => hi⟩ <;> grind [searchProblem]
  split
  · refine ⟨?_, fun _ => rfl, ?_, fun _ _ hi => hi⟩ <;> grind [searchProblem]
  split
  · refine ⟨?_, fun _ => rfl, ?_, fun _ _ hi => hi⟩ <;>
      grind [searchProblem, SearchProblem.turnedSuccessors]
  · exact assertedSuccessors_approximates h r i

theorem evaluate_of_antisymmRel (h : AntisymmRel (· ≤ ·) I J) (ds : List Decision)
    (c : Constraint) : (w.searchProblem I).evaluate ds c = (w.searchProblem J).evaluate ds c := by
  have happrox : ∀ {I J : Interpretation}, AntisymmRel (· ≤ ·) I J →
      ((w.searchProblem I).evaluate ds c).Approximates ((w.searchProblem J).evaluate ds c) :=
    fun h => View.member_approximates _ _
      ⟨fun c _ i => hasType_of_antisymmRel h i c,
        fun r _ i => relationSuccessors_of_antisymmRel h ds (w.relation r) i⟩
  exact (happrox h).antisymm (happrox h.symm)

theorem agrees_of_antisymmRel (h : AntisymmRel (· ≤ ·) I J) :
    (w.searchProblem I).Agrees (w.searchProblem J) where
  start := by
    simp only [searchProblem, ← searchedRelations_of_antisymmRel h]
    exact List.flatMap_congr fun r _ => (decisions_of_antisymmRel h r).symm
  constraints := fun c => (mem_constraints_of_antisymmRel h).symm
  evaluate := fun ds c => (evaluate_of_antisymmRel h ds c).symm

theorem StatesSame.constraints (hw : w.StatesSame w') (I : Interpretation) :
    w'.constraints I = w.constraints I := by
  have hids := hw.individualIds
  have hisA := hw.isA
  rw [hw.others] at hids hisA ⊢
  simp only [World.constraints, hids, Individual.membershipAxioms, hisA]
  rfl

theorem StatesSame.certainMembers (hw : w.StatesSame w') (I : Interpretation)
    (es : List ClassExpression) : w'.certainMembers I es = w.certainMembers I es := by
  have hids := hw.individualIds
  rw [hw.others] at hids ⊢
  rw [World.certainMembers, hids]
  rfl

theorem StatesSame.decisions (hw : w.StatesSame w') (I : Interpretation)
    (r : PropertyExpression) : w'.decisions I r = w.decisions I r := by
  have hmembers := hw.certainMembers I
  rw [hw.others] at hmembers ⊢
  simp only [World.decisions, openSubjects, possibleValues, hmembers]
  rfl

theorem StatesSame.searchProblem (hw : w.StatesSame w') (I : Interpretation) :
    w'.searchProblem I = { w.searchProblem I with world := w' } := by
  have hsearched : ∀ cs, w'.searchedRelations cs = w.searchedRelations cs := by
    rw [hw.others]
    exact fun _ => rfl
  have hdecisions : w'.decisions I = w.decisions I := funext (hw.decisions I)
  simp only [World.searchProblem, hw.constraints, hsearched, hdecisions]

theorem agrees_of_statesSame (hw : w.StatesSame w') (I : Interpretation) :
    (w.searchProblem I).Agrees (w'.searchProblem I) := by
  rw [hw.searchProblem I]
  refine ⟨rfl, fun _ => Iff.rfl, fun ds c => ?_⟩
  -- individuals play no part in the evaluation
  rw [hw.others]
  rfl

/-- **What is to be decided depends on what is stated and on what is known.** -/
theorem searchProblem_agrees (hw : w.StatesSame w') (h : AntisymmRel (· ≤ ·) I J) :
    (w.searchProblem I).Agrees (w'.searchProblem J) :=
  (agrees_of_antisymmRel h).trans (agrees_of_statesSame hw J)

end World

end Ontology
