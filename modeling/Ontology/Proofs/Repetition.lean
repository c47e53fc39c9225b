import Ontology.Proofs.Agreement
import Ontology.Proofs.Clashes
import Ontology.Proofs.Members

/-!
# Reasoning again

Once reasoning has come to rest, nothing changes when it is repeated.  What was found and kept is a
fixed point: a saturation needs one round to see that nothing is missing, and the search that ended
the first run ends the second one.

## Main definitions

* `World.IsSaturated` — a saturation has nothing to add to an interpretation or to object to.

## Main results

* `World.IsSaturated.saturate` — **what is saturated goes through saturation unchanged.**
* `World.EndsIn.again` — **where searches and saturations have ended they end at once.**
* `Workspace.inferWith_again` — **reasoning that came to rest finds the same again.**
-/

namespace Ontology

namespace Interpretation

variable {I : Interpretation}

theorem nodup_addFact (h : I.facts.Nodup) (f : Fact) : (I.addFact f).1.facts.Nodup := by
  rw [addFact]
  split
  · exact h
  · next hf => exact List.nodup_append.mpr ⟨h, by simp, by grind⟩

theorem nodup_addFacts (h : I.facts.Nodup) (fs : List Fact) : (I.addFacts fs).facts.Nodup := by
  rw [addFacts]
  induction fs generalizing I with
  | nil => exact h
  | cons f fs ih =>
    rw [List.foldl_cons]
    exact ih (nodup_addFact h f)

end Interpretation

namespace World

variable {w w' : World} {I J : Interpretation}

/-- What reasoning starts from lists each fact once. -/
theorem nodup_facts_interpretation (w : World) : w.interpretation.facts.Nodup := by
  have hfold : ∀ (is : List IndividualId) (I : Interpretation), I.facts.Nodup →
      (is.foldl (Interpretation.addIndividual w) I).facts.Nodup := by
    intro is
    induction is with
    | nil => exact fun I h => h
    | cons i is ih =>
      intro I h
      refine ih _ (Interpretation.nodup_addFacts (Interpretation.nodup_addFacts ?_ _) _)
      rwa [Interpretation.facts_addTypes]
  exact hfold _ _ List.nodup_nil

/-! ### Saturated interpretations -/

/-- A saturation has nothing to add to an interpretation or to object to. -/
structure IsSaturated (w : World) (I : Interpretation) : Prop where
  isClosed : w.IsClosed I
  fires : ∃ ds, w.fireRules I = .ok ds
  noClash : w.NoClash I

/-- What a saturation arrives at, if its last round added nothing. -/
theorem isSaturated_of_saturate {n : Nat} {s : Saturated} (h : w.saturate n I = .ok s)
    (hs : s.isSettled = true) : w.IsSaturated s.interpretation := by
  have hround := saturationRound_of_isSettled (saturate_eq_ok h) hs
  have hclosed := isClosed_of_saturationRound hround rfl
  obtain ⟨ds, hds, -⟩ := saturationRound_eq_ok hround
  rw [Interpretation.addFacts_eq_self (hclosed.propertyConsequences_subset (le_refl _))] at hds
  exact ⟨hclosed, ⟨ds, hds⟩, noClash_of_saturate h⟩

theorem IsSaturated.of_antisymmRel (h : w.IsSaturated I) (hIJ : AntisymmRel (· ≤ ·) I J) :
    w.IsSaturated J where
  isClosed := h.isClosed.of_antisymmRel hIJ
  fires := exists_fireRules_anti hIJ.2 h.fires
  noClash := h.noClash.anti hIJ.2

theorem IsSaturated.of_statesSame (h : w.IsSaturated I) (hw : w.StatesSame w') :
    w'.IsSaturated I where
  isClosed := h.isClosed.of_statesSame hw
  fires := by
    rw [hw.others]
    exact h.fires
  noClash := h.noClash.of_statesSame hw

/-- A round adds nothing to what is saturated. -/
theorem IsSaturated.saturationRound (h : w.IsSaturated I) : w.saturationRound I = .ok I := by
  obtain ⟨ds, hds⟩ := h.fires
  have hfacts : I.addFacts (w.propertyConsequences I) = I :=
    Interpretation.addFacts_eq_self (h.isClosed.propertyConsequences_subset (le_refl _))
  have hderived : I.addDerived ds = I := by
    refine Interpretation.addDerived_eq_self fun d hd => ?_
    obtain ⟨r, hr, hd⟩ := (mem_fireRules hds).mp hd
    exact h.isClosed.rule r hr d hd
  have htypes : I.addTypes (w.typeConsequences I) = I :=
    Interpretation.addTypes_eq_self
      (h.isClosed.typeConsequences_subset (le_refl _) fun _ _ _ _ hm => hm)
  rw [World.saturationRound, hfacts, hds]
  change Except.ok ((I.addDerived ds).addTypes (w.typeConsequences (I.addDerived ds))) = .ok I
  rw [hderived, htypes]

/-- **What is saturated goes through saturation unchanged**, in one round. -/
theorem IsSaturated.saturate (h : w.IsSaturated I) (hnodup : I.facts.Nodup) (n : Nat) :
    w.saturate n I = .ok ⟨I, 1, true⟩ := by
  have hrounds : w.saturateFrom (n - 1) 0 I = .ok ⟨I, 1, true⟩ := by
    rw [saturateFrom, h.saturationRound]
    simp [bind, Except.bind, pure, Except.pure]
  rw [World.saturate, hrounds]
  simp [bind, Except.bind, pure, Except.pure, h.noClash.clash?_eq_none hnodup]

/-! ### The end of reasoning -/

/-- **Where searches and saturations have ended they end at once**, with the same number of models,
and exhaustive or not as before. -/
theorem EndsIn.again {options : InferenceOptions} {r final : Reasoning} {later : List Saturated}
    (h : w.EndsIn options r later final) (hexhaustive : r.isExhaustive = true)
    (hmodels : w.constraints r.interpretation = [] → r.models = 0) (hw : w.StatesSame w')
    (hJ : AntisymmRel (· ≤ ·) final.interpretation J) (rounds : Nat) :
    w'.EndsIn options { interpretation := J, rounds } []
      { final with interpretation := J, rounds } := by
  have hproblem : ∀ {I}, AntisymmRel (· ≤ ·) I J →
      (w.searchProblem I).Agrees (w'.searchProblem J) := fun hJ => searchProblem_agrees hw hJ
  have hconstraints : ∀ {I}, AntisymmRel (· ≤ ·) I J →
      (w.constraints I = [] ↔ w'.constraints J = []) := by
    intro I hJ
    rw [List.eq_nil_iff_forall_not_mem, List.eq_nil_iff_forall_not_mem]
    exact forall_congr' fun c => not_congr ((hproblem hJ).constraints c).symm
  induction h with
  | unrestricted hnone =>
    rw [hmodels hnone, hexhaustive]
    exact .unrestricted ((hconstraints hJ).mp hnone)
  | @capped r o hsome hsolve hcapped =>
    obtain ⟨entailed, hsolve', -⟩ := (hproblem hJ).solve (searchProblem_wellFormed _ _)
      (searchProblem_wellFormed _ _) hsolve
    exact EndsIn.capped (o := { o with entailed }) (fun h => hsome ((hconstraints hJ).mpr h))
      hsolve' hcapped
  | @known r o hsome hsolve hcapped hknown =>
    obtain ⟨entailed, hsolve', hentailed⟩ := (hproblem hJ).solve (searchProblem_wellFormed _ _)
      (searchProblem_wellFormed _ _) hsolve
    rw [hexhaustive]
    refine EndsIn.known (o := { o with entailed }) (fun h => hsome ((hconstraints hJ).mpr h))
      hsolve' hcapped fun f hf => ?_
    exact hJ.1.1 (hknown ((hentailed f).mp hf))
  | further hsome _ _ _ hsaturate _ ih =>
    refine ih rfl (fun hnone => ?_) hJ
    -- restrictions do not disappear
    have hle := le_trans (Interpretation.extends_addFacts _ _).le (le_of_saturate hsaturate)
    have hsubset := constraints_mono (w := w) hle
    dsimp only at hnone
    rw [hnone, List.subset_nil] at hsubset
    exact absurd hsubset hsome

/-- If everything is asked for, all that is known in the end is kept. -/
theorem interpretation_applyInference {options : InferenceOptions} {report : InferenceReport}
    {final : Reasoning} (hvalues : options.inferPropertyValues = true)
    (hdata : options.inferDataPropertyValues = true) (h : w.infer options = .ok report)
    (hmembers : report.ConcernsMembers w) (hfinal : w.reason options = .ok final) :
    AntisymmRel (· ≤ ·) final.interpretation (w.applyInference report).interpretation := by
  refine ⟨?_, interpretation_applyInference_le h hfinal⟩
  obtain ⟨final', hfinal', htypes, hfacts, -, -⟩ := infer_eq_ok h
  rw [hfinal, Except.ok.injEq] at hfinal'
  subst hfinal'
  have hwants : ∀ v, InferenceOptions.wants options v = true := by
    intro v
    cases v <;> simp [InferenceOptions.wants, hvalues, hdata]
  refine ⟨fun f hf => ?_, fun t ht => ?_⟩
  · rw [mem_facts_interpretation, mem_values_applyInference]
    by_cases hstated : f.value ∈ w.assertedValues f.subject f.property
    · exact Or.inl (mem_values.mpr (Or.inl hstated))
    · have hreported := (hfacts f).mpr ⟨hf, hwants _, hstated⟩
      exact Or.inr ⟨hreported, hmembers.facts f hreported⟩
  · obtain ⟨i, c⟩ := t
    rw [mem_types_interpretation, mem_directTypes_applyInference]
    by_cases hstated : .named c ∈ (w.getIndividual i).isA
    · exact Or.inl (mem_directTypes.mpr (Or.inl hstated))
    · have hreported := (htypes (i, c)).mpr ⟨ht, hstated⟩
      exact Or.inr ⟨hreported, hmembers.types _ hreported⟩

/-- What reasoning that came to rest kept is where it ends when it is repeated. -/
theorem reason_again {options : InferenceOptions} {report : InferenceReport}
    {saturations : List Saturated} {final : Reasoning}
    (hvalues : options.inferPropertyValues = true) (hdata : options.inferDataPropertyValues = true)
    (h : w.infer options = .ok report) (hmembers : report.ConcernsMembers w)
    (hcourse : w.Course options saturations final)
    (hsettled : ∀ s ∈ saturations, s.isSettled = true) :
    (w.applyInference report).reason options = .ok
      { final with interpretation := (w.applyInference report).interpretation, rounds := 1 } := by
  have hfinal := reason_eq_ok_iff.mpr ⟨saturations, hcourse⟩
  have hsame := interpretation_applyInference hvalues hdata h hmembers hfinal
  have hw := statesSame_applyInference w report
  have hsaturated : (w.applyInference report).IsSaturated
      (w.applyInference report).interpretation := by
    obtain ⟨s, hs, hfinals, I, hsaturate⟩ := hcourse.exists_saturated
    rw [hfinals] at hsame
    have hsaturated := isSaturated_of_saturate hsaturate (hsettled s hs)
    exact (hsaturated.of_antisymmRel hsame).of_statesSame hw
  obtain ⟨s, later, rfl, -, hlater⟩ := hcourse
  have hends := hlater.again rfl (fun _ => rfl) hw hsame 1
  have hstart := hsaturated.saturate (nodup_facts_interpretation _) options.maxIterations
  exact reason_eq_ok_iff.mpr ⟨_, _, [], rfl, hstart, hends⟩

end World

/-- **Reasoning that came to rest finds the same again**: if everything is asked for and the last
round of every saturation added nothing, a second run succeeds, changes nothing, and reports the
same types, the same facts and the same number of models, exhaustive or not as before.  The report
has to be one that can be kept, which `World.concernsMembers_of_infer` says of every ontology that
mentions individuals of its own only. -/
theorem Workspace.inferWith_again {w w' : Workspace} {options : InferenceOptions}
    {report : InferenceReport} {saturations : List Saturated} {final : Reasoning}
    (hvalues : options.inferPropertyValues = true) (hdata : options.inferDataPropertyValues = true)
    (h : w.inferWith options = .ok (w', report)) (hmembers : report.ConcernsMembers w.world)
    (hcourse : w.world.Course options saturations final)
    (hsettled : ∀ s ∈ saturations, s.isSettled = true) :
    ∃ report', w'.inferWith options = .ok (w', report') ∧
      (∀ t, t ∈ report'.inferredTypes ↔ t ∈ report.inferredTypes) ∧
      (∀ f, f ∈ report'.inferredFacts ↔ f ∈ report.inferredFacts) ∧
      report'.models = report.models ∧ report'.exhaustive = report.exhaustive := by
  rw [inferWith] at h
  split at h
  swap
  · simp at h
  next r hr =>
  rw [Except.ok.injEq, Prod.mk.injEq] at h
  obtain ⟨rfl, rfl⟩ := h
  have hreason := World.reason_again hvalues hdata hr hmembers hcourse hsettled
  obtain ⟨report', hreport'⟩ : ∃ report', (w.world.applyInference r).infer options = .ok report' :=
    ⟨_, by rw [World.infer, hreason]; rfl⟩
  obtain ⟨final', hfinal', htypes, hfacts, hmodels, hexhaustive⟩ := World.infer_eq_ok hr
  rw [World.reason_eq_ok_iff.mpr ⟨saturations, hcourse⟩, Except.ok.injEq] at hfinal'
  subst hfinal'
  have hsame := World.interpretation_applyInference hvalues hdata hr hmembers
    (World.reason_eq_ok_iff.mpr ⟨saturations, hcourse⟩)
  obtain ⟨again, hagain, htypes', hfacts', hmodels', hexhaustive'⟩ := World.infer_eq_ok hreport'
  rw [hreason, Except.ok.injEq] at hagain
  subst hagain
  have hw := World.statesSame_applyInference w.world r
  refine ⟨report', ?_, fun t => ?_, fun f => ?_, ?_, ?_⟩
  · have hkept : (w.world.applyInference r).applyInference report' = w.world.applyInference r := by
      refine World.applyInference_eq_self (fun t ht => ?_) fun f hf => ?_
      · exact World.mem_types_interpretation.mp ((htypes' t).mp ht).1
      · exact World.mem_facts_interpretation.mp ((hfacts' f).mp hf).1
    rw [inferWith]
    dsimp only
    rw [hreport']
    dsimp only
    rw [hkept]
  · rw [htypes', htypes, hw.isA, World.mem_types_of_antisymmRel hsame]
  · rw [hfacts', hfacts, hw.assertedValues, World.mem_facts_of_antisymmRel hsame]
  · rw [hmodels', hmodels]
  · rw [hexhaustive', hexhaustive]

/-! ### The party again -/

namespace World

/-- What is known at the party before the search. -/
def beforeParty : Interpretation where
  facts := [⟨⟨0⟩, ⟨1⟩, .nothing⟩]
  types := [(⟨1⟩, ⟨0⟩)]

/-- What is known at the party in the end. -/
def afterParty : Interpretation where
  facts := [⟨⟨0⟩, ⟨1⟩, .nothing⟩, ⟨⟨0⟩, ⟨0⟩, .individual ⟨1⟩⟩]
  types := [(⟨1⟩, ⟨0⟩)]

/-- A search finds the greeting, and the next one nothing more. -/
theorem course_party : party.Course {} [⟨beforeParty, 2, true⟩, ⟨afterParty, 1, true⟩]
    { interpretation := afterParty, models := 1, rounds := 3 } := by
  refine ⟨_, _, rfl, by decide +kernel, ?_⟩
  refine EndsIn.further (o := ⟨1, false, [⟨⟨0⟩, ⟨0⟩, .individual ⟨1⟩⟩]⟩) (by decide)
    (by decide +kernel) rfl (by decide) (by decide +kernel) ?_
  exact EndsIn.known (o := ⟨1, false, []⟩) (by decide) (by decide +kernel) rfl (by decide)

end World

/-- A second run finds the greeting again. -/
theorem Workspace.inferWith_again_party : ∃ report',
    inferWith ⟨World.party.applyInference World.partyReport, {}⟩ {}
      = .ok (⟨World.party.applyInference World.partyReport, {}⟩, report') ∧
    (∀ t, t ∈ report'.inferredTypes ↔ t ∈ World.partyReport.inferredTypes) ∧
    (∀ f, f ∈ report'.inferredFacts ↔ f ∈ World.partyReport.inferredFacts) ∧
    report'.models = 1 ∧ report'.exhaustive = true := by
  have hinfer : World.party.infer {} = .ok World.partyReport := by decide +kernel
  have hrun : inferWith ⟨.party, {}⟩ {}
      = .ok (⟨World.party.applyInference World.partyReport, {}⟩, World.partyReport) := by
    rw [inferWith, hinfer]
  have hmembers := World.concernsMembers_of_infer (by decide) hinfer
  exact inferWith_again rfl rfl hrun hmembers World.course_party (by decide)

end Ontology
