import Ontology.Proofs.Course
import Ontology.Proofs.Inferred
import Ontology.Workspace

/-!
# Ontologies without clashes

Each saturation ends with a test for clashes, and a search is followed by another saturation
whenever it adds anything.  So there is none in what is known in the end, and none in what is kept
of it.

## Main definitions

* `World.NoClash` — an interpretation has no clash, one condition for each kind.
* `World.IsClashFree` — what is known of the individuals of an ontology has no clash.

## Main results

* `noClash_of_clash?` — **the test finds a clash if there is one.**
* `World.noClash_of_infer` — what is kept of a report has no clash.
* `Workspace.isClashFree_of_inferWith` — **an ontology is free of clashes after reasoning.**
-/

namespace Ontology

/-! ### Answers without repetitions -/

namespace Interpretation

variable {I : Interpretation}

theorem nodup_values (hnodup : I.facts.Nodup) (p : PropertyId) (s : IndividualId) :
    (I.values p s).Nodup := by
  refine hnodup.filterMap ?_
  rintro ⟨s₁, p₁, v₁⟩ ⟨s₂, p₂, v₂⟩ v h₁ h₂
  simp only [Option.mem_def, Option.ite_none_right_eq_some, Option.some.injEq] at h₁ h₂
  obtain ⟨⟨rfl, rfl⟩, rfl⟩ := h₁
  obtain ⟨⟨rfl, rfl⟩, rfl⟩ := h₂
  rfl

theorem nodup_subjects (hnodup : I.facts.Nodup) (p : PropertyId) (o : IndividualId) :
    (I.subjects p o).Nodup := by
  refine hnodup.filterMap ?_
  rintro ⟨s₁, p₁, v₁⟩ ⟨s₂, p₂, v₂⟩ s h₁ h₂
  simp only [Option.mem_def, Option.ite_none_right_eq_some, Option.some.injEq] at h₁ h₂
  obtain ⟨⟨rfl, rfl⟩, rfl⟩ := h₁
  obtain ⟨⟨rfl, rfl⟩, rfl⟩ := h₂
  rfl

end Interpretation

namespace World

variable {w w' : World} {I J : Interpretation}

/-! ### Clashes -/

/-- An interpretation has no clash. -/
structure NoClash (w : World) (I : Interpretation) : Prop where
  /-- The marker that there is no value stands alone. -/
  marked : ∀ s p u v, ⟨s, p, u⟩ ∈ I.facts → ⟨s, p, v⟩ ∈ I.facts → u.isNothing = true →
    v.isNothing = true
  functional : ∀ s p u v, (w.getProperty p).characteristics.functional = true →
    ⟨s, p, u⟩ ∈ I.facts → ⟨s, p, v⟩ ∈ I.facts → u.isNothing = false → v.isNothing = false → u = v
  inverseFunctional : ∀ s t p o, (w.getProperty p).characteristics.inverseFunctional = true →
    ⟨s, p, .individual o⟩ ∈ I.facts → ⟨t, p, .individual o⟩ ∈ I.facts → s = t
  listed : ∀ i c members, (i, c) ∈ I.types → .oneOf members ∈ (w.getClass c).equivalentTo →
    i ∈ members
  inhabited : ∀ i c, (i, c) ∈ I.types → .nothing ∉ (w.getClass c).equivalentTo

/-- Less knowledge has no more clashes. -/
theorem NoClash.anti (h : w.NoClash J) (hIJ : I ≤ J) : w.NoClash I where
  marked := fun s p u v hu hv => h.marked s p u v (hIJ.1 hu) (hIJ.1 hv)
  functional := fun s p u v hp hu hv => h.functional s p u v hp (hIJ.1 hu) (hIJ.1 hv)
  inverseFunctional := fun s t p o hp hs ht => h.inverseFunctional s t p o hp (hIJ.1 hs) (hIJ.1 ht)
  listed := fun i c members hi => h.listed i c members (hIJ.2 hi)
  inhabited := fun i c hi => h.inhabited i c (hIJ.2 hi)

/-- Clashes depend on what is stated only. -/
theorem NoClash.of_statesSame (h : w.NoClash I) (hw : w.StatesSame w') : w'.NoClash I := by
  rw [hw.others]
  exact ⟨h.marked, h.functional, h.inverseFunctional, h.listed, h.inhabited⟩

/-! ### The test for clashes -/

theorem valueClash?_eq_none_iff {s : IndividualId} {p : PropertyId} {x : Value} :
    w.valueClash? I ⟨s, p, x⟩ = none ↔
      (∀ u ∈ I.values p s, ∀ v ∈ I.values p s, u.isNothing = true → v.isNothing = true) ∧
        ((w.getProperty p).characteristics.functional = true →
          ((I.values p s).filter (!·.isNothing)).length ≤ 1) := by
  have hmarked : (0 < ((I.values p s).filter (!·.isNothing)).length ∧
      ((I.values p s).filter (!·.isNothing)).length < (I.values p s).length) ↔
        (∃ v ∈ I.values p s, v.isNothing = false) ∧ ∃ u ∈ I.values p s, u.isNothing = true := by
    rw [List.length_filter_pos_iff, List.length_filter_lt_length_iff_exists]
    simp
  simp only [valueClash?, hmarked]
  split
  · next h =>
    obtain ⟨⟨v, hv, hvn⟩, u, hu, hun⟩ := h
    refine iff_of_false (by simp) fun h => ?_
    have := h.1 u hu v hv hun
    rw [hvn] at this
    simp at this
  · next h =>
    have hfirst : ∀ u ∈ I.values p s, ∀ v ∈ I.values p s, u.isNothing = true →
        v.isNothing = true := by
      intro u hu v hv hun
      by_contra hvn
      exact h ⟨⟨v, hv, by simpa using hvn⟩, u, hu, hun⟩
    rw [and_iff_right hfirst]
    split
    · next h' => exact iff_of_false (by simp) fun h => by have := h h'.1; omega
    · next h' => exact iff_of_true rfl fun hp => by by_contra hlt; exact h' ⟨hp, by omega⟩

theorem subjectClash?_eq_none_iff {s o : IndividualId} {p : PropertyId} :
    w.subjectClash? I ⟨s, p, .individual o⟩ = none ↔
      ((w.getProperty p).characteristics.inverseFunctional = true →
        (I.subjects p o).length ≤ 1) := by
  rw [subjectClash?]
  dsimp only
  split
  · next first second rest hsubjects => simp [hsubjects]
  · next hsubjects =>
    match hs : I.subjects p o with
    | [] => simp
    | [_] => simp
    | first :: second :: rest => exact absurd hs (hsubjects first second rest)

theorem excludes_iff {i : IndividualId} {e : ClassExpression} : excludes i e = true ↔
    e = .nothing ∨ ∃ members, e = .oneOf members ∧ i ∉ members := by
  cases e <;> simp [excludes]

theorem typeClash?_eq_none_iff {i : IndividualId} {c : ClassId} : w.typeClash? i c = none ↔
    .nothing ∉ (w.getClass c).equivalentTo ∧
      ∀ members, .oneOf members ∈ (w.getClass c).equivalentTo → i ∈ members := by
  simp only [typeClash?, ite_eq_right_iff, List.any_eq_true, excludes_iff, reduceCtorEq]
  grind

theorem clash?_eq_none_iff_forall : w.clash? I = none ↔ (∀ f ∈ I.facts, w.valueClash? I f = none) ∧
    (∀ f ∈ I.facts, w.subjectClash? I f = none) ∧
      ∀ t ∈ I.types, w.typeClash? t.1 t.2 = none := by
  simp only [clash?, Option.orElse_eq_none, List.findSome?_eq_none_iff]

/-- **What passes the test has no clash.** -/
theorem noClash_of_clash? (h : w.clash? I = none) : w.NoClash I := by
  obtain ⟨hvalue, hsubject, htype⟩ := clash?_eq_none_iff_forall.mp h
  refine ⟨?_, ?_, ?_, ?_, ?_⟩
  · intro s p u v hu hv
    have halone := (valueClash?_eq_none_iff.mp (hvalue _ hu)).1
    exact halone u (by simpa using hu) v (by simpa using hv)
  · intro s p u v hp hu hv hun hvn
    have hone := (valueClash?_eq_none_iff.mp (hvalue _ hu)).2 hp
    exact eq_of_length_le_one hone (by simp [hu, hun]) (by simp [hv, hvn])
  · intro s t p o hp hs ht
    have hone := subjectClash?_eq_none_iff.mp (hsubject _ hs) hp
    exact eq_of_length_le_one hone (by simpa using hs) (by simpa using ht)
  · exact fun i c members hi => (typeClash?_eq_none_iff.mp (htype _ hi)).2 members
  · exact fun i c hi => (typeClash?_eq_none_iff.mp (htype _ hi)).1

/-- **What has no clash passes the test.** -/
theorem NoClash.clash?_eq_none (h : w.NoClash I) (hnodup : I.facts.Nodup) :
    w.clash? I = none := by
  refine clash?_eq_none_iff_forall.mpr ⟨?_, ?_, ?_⟩
  · rintro ⟨s, p, x⟩ -
    refine valueClash?_eq_none_iff.mpr ⟨fun u hu v hv => ?_, fun hp => ?_⟩
    · exact h.marked s p u v (by simpa using hu) (by simpa using hv)
    · refine length_le_one_of_forall_eq ((Interpretation.nodup_values hnodup p s).filter _) ?_
      intro u hu v hv
      simp only [List.mem_filter, Interpretation.mem_values, Bool.not_eq_true'] at hu hv
      exact h.functional s p u v hp hu.1 hv.1 hu.2 hv.2
  · rintro ⟨s, p, x⟩ -
    cases x with
    | individual o =>
      refine subjectClash?_eq_none_iff.mpr fun hp => ?_
      refine length_le_one_of_forall_eq (Interpretation.nodup_subjects hnodup p o) ?_
      exact fun s hs t ht => h.inverseFunctional s t p o hp (by simpa using hs) (by simpa using ht)
    | expression e => rfl
    | literal l => rfl
  · rintro ⟨i, c⟩ hi
    exact typeClash?_eq_none_iff.mpr ⟨h.inhabited i c hi, fun members => h.listed i c members hi⟩

/-! ### Reasoning -/

theorem noClash_of_saturate {n : Nat} {s : Saturated} (h : w.saturate n I = .ok s) :
    w.NoClash s.interpretation := by
  rw [saturate] at h
  obtain ⟨s', -, h⟩ := exists_of_bind_eq_ok h
  split at h
  · simp at h
  · next hnone =>
    rw [← Except.ok.inj h]
    exact noClash_of_clash? hnone

/-- What is known in the end has no clash. -/
theorem noClash_of_reason {options : InferenceOptions} {final : Reasoning}
    (h : w.reason options = .ok final) : w.NoClash final.interpretation := by
  obtain ⟨saturations, hcourse⟩ := reason_eq_ok_iff.mp h
  obtain ⟨s, -, hfinal, I, hs⟩ := hcourse.exists_saturated
  rw [hfinal]
  exact noClash_of_saturate hs

/-- What is kept of a report was known in the end. -/
theorem interpretation_applyInference_le {options : InferenceOptions} {report : InferenceReport}
    {final : Reasoning} (h : w.infer options = .ok report) (hfinal : w.reason options = .ok final) :
    (w.applyInference report).interpretation ≤ final.interpretation := by
  obtain ⟨final', hfinal', htypes, hfacts, -, -⟩ := infer_eq_ok h
  rw [hfinal, Except.ok.injEq] at hfinal'
  subst hfinal'
  obtain ⟨saturations, hcourse⟩ := reason_eq_ok_iff.mp hfinal
  have hstart : w.interpretation ≤ final.interpretation := hcourse.le
  refine ⟨fun f hf => ?_, fun t ht => ?_⟩
  · rcases mem_values_applyInference.mp (mem_facts_interpretation.mp hf) with hf | ⟨hf, -⟩
    · exact hstart.1 (mem_facts_interpretation.mpr hf)
    · exact ((hfacts f).mp hf).1
  · rcases mem_directTypes_applyInference.mp (mem_types_interpretation.mp ht) with ht | ⟨ht, -⟩
    · exact hstart.2 (mem_types_interpretation.mpr ht)
    · exact ((htypes t).mp ht).1

/-- What is kept of a report has no clash. -/
theorem noClash_of_infer {options : InferenceOptions} {report : InferenceReport}
    (h : w.infer options = .ok report) :
    (w.applyInference report).NoClash (w.applyInference report).interpretation := by
  obtain ⟨final, hfinal, -⟩ := infer_eq_ok h
  have hle := interpretation_applyInference_le h hfinal
  exact ((noClash_of_reason hfinal).anti hle).of_statesSame (statesSame_applyInference w report)

/-! ### Clashes in an ontology -/

/-- What is known of the individuals of an ontology has no clash. -/
structure IsClashFree (w : World) : Prop where
  /-- The marker that there is no value stands alone. -/
  marked : ∀ s p, .nothing ∈ w.values s p → ∀ v ∈ w.values s p, v = .nothing
  functional : ∀ s p, (w.getProperty p).characteristics.functional = true →
    ((w.values s p).filter (!·.isNothing)).length ≤ 1
  inverseFunctional : ∀ s t p o, (w.getProperty p).characteristics.inverseFunctional = true →
    .individual o ∈ w.values s p → .individual o ∈ w.values t p → s = t
  listed : ∀ i, ∀ c ∈ w.directTypes i, ∀ members,
    .oneOf members ∈ (w.getClass c).equivalentTo → i ∈ members
  inhabited : ∀ i, ∀ c ∈ w.directTypes i, .nothing ∉ (w.getClass c).equivalentTo

theorem isNothing_iff {v : Value} : v.isNothing = true ↔ v = .nothing := by
  cases v with
  | individual i => simp [Value.isNothing, Value.nothing]
  | expression e => cases e <;> simp [Value.isNothing, Value.nothing]
  | literal l => simp [Value.isNothing, Value.nothing]

/-- What reasoning starts from has no clash. -/
theorem NoClash.isClashFree (h : w.NoClash w.interpretation) : w.IsClashFree where
  marked := by
    intro s p hnothing v hv
    rw [← isNothing_iff]
    exact h.marked s p _ v (mem_facts_interpretation.mpr hnothing)
      (mem_facts_interpretation.mpr hv) rfl
  functional := by
    intro s p hp
    refine length_le_one_of_forall_eq ((nodup_values w s p).filter _) ?_
    intro u hu v hv
    simp only [List.mem_filter, Bool.not_eq_true'] at hu hv
    exact h.functional s p u v hp (mem_facts_interpretation.mpr hu.1)
      (mem_facts_interpretation.mpr hv.1) hu.2 hv.2
  inverseFunctional := fun s t p o hp hs ht => h.inverseFunctional s t p o hp
    (mem_facts_interpretation.mpr hs) (mem_facts_interpretation.mpr ht)
  listed := fun i c hc members => h.listed i c members (mem_types_interpretation.mpr hc)
  inhabited := fun i c hc => h.inhabited i c (mem_types_interpretation.mpr hc)

end World

/-- **An ontology is free of clashes after reasoning**, whatever is asked for, however many models
are searched for and however many rounds are made. -/
theorem Workspace.isClashFree_of_inferWith {w w' : Workspace} {options : InferenceOptions}
    {report : InferenceReport} (h : w.inferWith options = .ok (w', report)) :
    w'.world.IsClashFree := by
  rw [inferWith] at h
  split at h
  · next r hr =>
    rw [Except.ok.injEq, Prod.mk.injEq] at h
    rw [← h.1]
    exact (World.noClash_of_infer hr).isClashFree
  · simp at h

/-! ### A party -/

namespace World

/-- The host has to greet someone, greets guests only and avoids nobody; there is one guest. -/
def party : World where
  iri := ""
  classes := #[{ name := "Guest", equivalentTo := [.oneOf [⟨1⟩]] }]
  properties := #[
    { name := "greets", kind := .object, range := .classes [.named ⟨0⟩]
      characteristics := { functional := true, inverseFunctional := true } },
    { name := "avoids", kind := .object }]
  individuals := #[
    { name := "host"
      isA := [.thing, .restriction (.named ⟨0⟩) .some (.expression .thing)]
      facts := .push {} ⟨1⟩ .nothing },
    { name := "guest", isA := [.thing] }]

/-- The guest is found by its definition, and the greeting by a search. -/
def partyReport : InferenceReport where
  inferredTypes := [(⟨1⟩, ⟨0⟩)]
  inferredFacts := [⟨⟨0⟩, ⟨0⟩, .individual ⟨1⟩⟩]
  models := 1
  iterations := 3

end World

/-- After reasoning about the party the host greets the guest, and there is no clash. -/
theorem Workspace.isClashFree_party :
    inferWith ⟨.party, {}⟩ {} = .ok (⟨World.party.applyInference World.partyReport, {}⟩,
      World.partyReport) ∧
      (World.party.applyInference World.partyReport).IsClashFree := by
  have hinfer : World.party.infer {} = .ok World.partyReport := by decide +kernel
  have hrun : inferWith ⟨.party, {}⟩ {}
      = .ok (⟨World.party.applyInference World.partyReport, {}⟩, World.partyReport) := by
    rw [inferWith, hinfer]
  exact ⟨hrun, isClashFree_of_inferWith hrun⟩

end Ontology
