import Ontology.Proofs.Growth
import Ontology.Proofs.Renaming

/-!
# What is kept of a report

A report is merged into the inferred types and values.  What is stated stays as it is, and what
reasoning starts from next time is what was known before together with the report.

## Main definitions

* `World.StatesSame` — two ontologies differ in nothing but what was inferred.
* `InferenceReport.ConcernsMembers` — a report is about individuals of the ontology.

## Main results

* `World.mem_facts_interpretation`, `World.mem_types_interpretation` — what reasoning starts from.
* `World.statesSame_applyInference` — **a report changes nothing that is stated.**
* `World.mem_values_applyInference`, `World.mem_directTypes_applyInference` — **what is known after
  a report is merged.**
* `World.applyInference_eq_self` — a report without news changes nothing.
-/

namespace Ontology

/-! ### New nodes -/

section FreshNodes

variable {α : Type} [DecidableEq α]

theorem mem_freshNodes {seen found : List α} {a : α} :
    a ∈ freshNodes seen found ↔ a ∈ found ∧ a ∉ seen := by
  have hfold : ∀ fresh : List α, a ∈ found.foldl (fun fresh b =>
      if b ∈ seen ∨ b ∈ fresh then fresh else fresh ++ [b]) fresh ↔
        a ∈ fresh ∨ a ∈ found ∧ a ∉ seen := by
    induction found with
    | nil => simp
    | cons b found ih =>
      intro fresh
      rw [List.foldl_cons, ih]
      split <;> grind
  rw [freshNodes, hfold]
  simp

theorem nodup_freshNodes (seen found : List α) : (freshNodes seen found).Nodup := by
  have hfold : ∀ fresh : List α, fresh.Nodup → (found.foldl (fun fresh b =>
      if b ∈ seen ∨ b ∈ fresh then fresh else fresh ++ [b]) fresh).Nodup := by
    induction found with
    | nil => exact fun fresh h => h
    | cons b found ih =>
      intro fresh h
      rw [List.foldl_cons]
      refine ih _ ?_
      split
      · exact h
      · next hb =>
        rw [not_or] at hb
        exact List.nodup_append.mpr ⟨h, by simp, by grind⟩
  exact hfold [] List.nodup_nil

end FreshNodes

/-! ### Rows of values -/

namespace Assertions

theorem lookup_cons (p q : PropertyId) (values : List Value)
    (rest : List (PropertyId × List Value)) :
    ((q, values) :: rest).lookup p = if p = q then some values else rest.lookup p := by
  rw [List.lookup_cons]
  by_cases hpq : p = q
  · rw [if_pos hpq, beq_iff_eq.mpr hpq]
  · rw [if_neg hpq, beq_eq_false_iff_ne.mpr hpq]

/-- In rows that are in order the row of a property is the one that is found. -/
theorem lookup_eq_some_iff {p : PropertyId} {values : List Value} :
    ∀ {rows : List (PropertyId × List Value)}, rows.Pairwise (·.1.index < ·.1.index) →
      (rows.lookup p = some values ↔ (p, values) ∈ rows)
  | [], _ => by simp
  | (q, others) :: rest, h => by
    obtain ⟨hq, hrest⟩ := List.pairwise_cons.mp h
    have ih : rest.lookup p = some values ↔ (p, values) ∈ rest := lookup_eq_some_iff hrest
    rw [lookup_cons, List.mem_cons, Prod.mk.injEq]
    by_cases hpq : p = q
    · subst hpq
      -- the other rows belong to younger properties
      have hne : (p, values) ∉ rest := fun hmem => absurd (hq _ hmem) (by simp)
      simp [hne, eq_comm]
    · simp [hpq, ih]

/-- Only the row of the property changes. -/
theorem lookup_modifyRows {p q : PropertyId} {f : List Value → List Value} :
    ∀ {rows : List (PropertyId × List Value)}, rows.Pairwise (·.1.index < ·.1.index) →
      (modifyRows p f rows).lookup q
        = if q = p then some (f ((rows.lookup p).getD [])) else rows.lookup q
  | [], _ => by
    rw [modifyRows]
    by_cases hqp : q = p <;> simp [lookup_cons, hqp]
  | (r, values) :: rest, h => by
    obtain ⟨hr, hrest⟩ := List.pairwise_cons.mp h
    have ih := lookup_modifyRows (p := p) (q := q) (f := f) hrest
    rw [modifyRows]
    split
    · next hrp =>
      subst hrp
      by_cases hqr : q = r <;> simp [lookup_cons, hqr]
    next hrp =>
    split
    · next hlt =>
      -- the property has no row yet
      have hnone : ((r, values) :: rest).lookup p = none := by
        refine Option.eq_none_iff_forall_ne_some.mpr fun others hp => ?_
        rcases List.mem_cons.mp ((lookup_eq_some_iff h).mp hp) with heq | hmem
        · exact hrp (Prod.mk.inj heq).1.symm
        · exact absurd (hr _ hmem) (by simp; omega)
      rw [hnone, lookup_cons]
      by_cases hqp : q = p <;> simp [hqp]
    · rw [lookup_cons, ih, lookup_cons, lookup_cons, if_neg (Ne.symm hrp)]
      by_cases hqr : q = r
      · subst hqr
        rw [if_pos rfl, if_neg hrp, if_pos rfl]
      · rw [if_neg hqr, if_neg hqr]

/-- A value is added to one property. -/
theorem get_push (a : Assertions) (p q : PropertyId) (v : Value) :
    (a.push p v).get q = if q = p then a.get p ++ [v] else a.get q := by
  rw [get, push, lookup_modifyRows a.sorted]
  split <;> rfl

theorem mem_get_push {a : Assertions} {p q : PropertyId} {u v : Value} :
    u ∈ (a.push p v).get q ↔ u ∈ a.get q ∨ q = p ∧ u = v := by
  rw [get_push]
  split
  · next hqp => simp [hqp]
  · next hqp => simp [hqp]

theorem mem_toList {a : Assertions} {p : PropertyId} {v : Value} :
    (p, v) ∈ a.toList ↔ v ∈ a.get p := by
  simp only [toList, List.mem_flatMap, List.mem_map, Prod.mk.injEq, Prod.exists, get]
  constructor
  · rintro ⟨q, values, hrow, u, hu, rfl, rfl⟩
    rw [(lookup_eq_some_iff a.sorted).mpr hrow]
    exact hu
  · intro hv
    cases hrow : a.rows.lookup p with
    | none => simp [hrow] at hv
    | some values =>
      rw [hrow] at hv
      exact ⟨p, values, (lookup_eq_some_iff a.sorted).mp hrow, v, hv, rfl, rfl⟩

theorem mem_facts {a : Assertions} {s : IndividualId} {f : Fact} :
    f ∈ a.facts s ↔ f.subject = s ∧ f.value ∈ a.get f.property := by
  simp only [facts, List.mem_map, Prod.exists, mem_toList]
  constructor
  · rintro ⟨p, v, hv, rfl⟩
    exact ⟨rfl, hv⟩
  · rintro ⟨rfl, hv⟩
    exact ⟨_, _, hv, rfl⟩

end Assertions

theorem ClassExpression.named?_eq_some_iff {e : ClassExpression} {c : ClassId} :
    e.named? = some c ↔ e = .named c := by
  cases e <;> simp [ClassExpression.named?]

theorem Class.mem_parents {d : Class} {c : ClassId} : c ∈ d.parents ↔ .named c ∈ d.isA := by
  simp [Class.parents, List.mem_filterMap, ClassExpression.named?_eq_some_iff]

namespace World

variable {w : World}

/-! ### What is known of an individual -/

theorem mem_directTypes {i : IndividualId} {c : ClassId} : c ∈ w.directTypes i ↔
    .named c ∈ (w.getIndividual i).isA ∨ c ∈ (w.getIndividual i).inferredTypes := by
  have hstated : c ∈ (w.getIndividual i).isA.filterMap ClassExpression.named? ↔
      .named c ∈ (w.getIndividual i).isA := by
    simp [List.mem_filterMap, ClassExpression.named?_eq_some_iff]
  rw [directTypes, List.mem_append, mem_freshNodes, hstated]
  grind

theorem mem_values {s : IndividualId} {p : PropertyId} {v : Value} : v ∈ w.values s p ↔
    v ∈ w.assertedValues s p ∨ v ∈ (w.getIndividual s).inferredFacts.get p := by
  rw [values, mem_freshNodes, List.mem_append]
  simp

theorem nodup_values (w : World) (s : IndividualId) (p : PropertyId) : (w.values s p).Nodup :=
  nodup_freshNodes _ _

/-- An individual that is not in the ontology has no types and no values. -/
theorem getIndividual_of_notMem {i : IndividualId} (hi : i ∉ w.individualIds) :
    w.getIndividual i = { name := "", isA := [] } := by
  rw [mem_individualIds, Bool.not_eq_true, Option.isSome_eq_false_iff, Option.isNone_iff_eq_none]
    at hi
  rw [getIndividual, hi, Option.getD_none]

theorem mem_individualIds_of_mem_directTypes {i : IndividualId} {c : ClassId}
    (h : c ∈ w.directTypes i) : i ∈ w.individualIds := by
  by_contra hi
  rw [mem_directTypes, getIndividual_of_notMem hi] at h
  simp at h

theorem mem_individualIds_of_mem_values {s : IndividualId} {p : PropertyId} {v : Value}
    (h : v ∈ w.values s p) : s ∈ w.individualIds := by
  by_contra hs
  rw [mem_values, assertedValues, getIndividual_of_notMem hs] at h
  simp [Assertions.get] at h

/-! ### What reasoning starts from -/

theorem types_addIndividual {I : Interpretation} {i : IndividualId} :
    (I.addIndividual w i).types = (I.addTypes ((w.directTypes i).map (i, ·))).types := by
  simp only [Interpretation.addIndividual, Interpretation.types_addFacts]

theorem mem_types_addIndividual {I : Interpretation} {i j : IndividualId} {c : ClassId} :
    (j, c) ∈ (I.addIndividual w i).types ↔ (j, c) ∈ I.types ∨ j = i ∧ c ∈ w.directTypes i := by
  rw [types_addIndividual, Interpretation.mem_addTypes, List.mem_map]
  grind

theorem mem_facts_addIndividual {I : Interpretation} {i : IndividualId} {f : Fact} :
    f ∈ (I.addIndividual w i).facts ↔
      f ∈ I.facts ∨ f.subject = i ∧ f.value ∈ w.values i f.property := by
  simp only [Interpretation.addIndividual, Interpretation.mem_addFacts,
    Interpretation.facts_addTypes, Assertions.mem_facts, mem_values, assertedValues]
  grind

/-- The types that reasoning starts from. -/
theorem mem_types_interpretation {i : IndividualId} {c : ClassId} :
    (i, c) ∈ w.interpretation.types ↔ c ∈ w.directTypes i := by
  have hfold : ∀ (is : List IndividualId) (I : Interpretation),
      (i, c) ∈ (is.foldl (Interpretation.addIndividual w) I).types ↔
        (i, c) ∈ I.types ∨ i ∈ is ∧ c ∈ w.directTypes i := by
    intro is
    induction is with
    | nil => simp
    | cons j is ih =>
      intro I
      rw [List.foldl_cons, ih, mem_types_addIndividual]
      grind
  rw [interpretation, hfold]
  have := mem_individualIds_of_mem_directTypes (w := w) (i := i) (c := c)
  simp only [List.not_mem_nil, false_or]
  grind

/-- The facts that reasoning starts from. -/
theorem mem_facts_interpretation {f : Fact} :
    f ∈ w.interpretation.facts ↔ f.value ∈ w.values f.subject f.property := by
  have hfold : ∀ (is : List IndividualId) (I : Interpretation),
      f ∈ (is.foldl (Interpretation.addIndividual w) I).facts ↔
        f ∈ I.facts ∨ f.subject ∈ is ∧ f.value ∈ w.values f.subject f.property := by
    intro is
    induction is with
    | nil => simp
    | cons j is ih =>
      intro I
      rw [List.foldl_cons, ih, mem_facts_addIndividual]
      grind
  rw [interpretation, hfold]
  have := mem_individualIds_of_mem_values (w := w) (s := f.subject) (p := f.property) (v := f.value)
  simp only [List.not_mem_nil, false_or]
  grind

/-! ### One entry of a report -/

/-- Two ontologies differ in nothing but what was inferred about individuals. -/
structure StatesSame (w w' : World) : Prop where
  others : w' = { w with individuals := w'.individuals }
  individualIds : w'.individualIds = w.individualIds
  isA : ∀ i, (w'.getIndividual i).isA = (w.getIndividual i).isA
  assertedValues : ∀ s p, w'.assertedValues s p = w.assertedValues s p

theorem StatesSame.refl (w : World) : w.StatesSame w where
  others := rfl
  individualIds := rfl
  isA := fun _ => rfl
  assertedValues := fun _ _ => rfl

theorem StatesSame.trans {w₁ w₂ w₃ : World} (h : w₁.StatesSame w₂) (h' : w₂.StatesSame w₃) :
    w₁.StatesSame w₃ where
  others := by rw [h'.others, h.others]
  individualIds := h'.individualIds.trans h.individualIds
  isA := fun i => (h'.isA i).trans (h.isA i)
  assertedValues := fun s p => (h'.assertedValues s p).trans (h.assertedValues s p)

theorem getIndividual_modifyIndividual (w : World) (i j : IndividualId)
    (f : Individual → Individual) : (w.modifyIndividual i f).getIndividual j =
      if i = j ∧ j ∈ w.individualIds then f (w.getIndividual j) else w.getIndividual j := by
  simp only [mem_individualIds, getIndividual, individual?, modifyIndividual, Array.getElem?_modify]
  cases hj : w.individuals[j.index]? with
  | none => simp
  | some d =>
    by_cases hij : i = j
    · simp [hij]
    · have hindex : i.index ≠ j.index := fun h => hij (by cases i; cases j; simp_all)
      simp [hij, hindex]

theorem individualIds_modifyIndividual (w : World) (i : IndividualId)
    (f : Individual → Individual) : (w.modifyIndividual i f).individualIds = w.individualIds := by
  simp only [individualIds, modifyIndividual, Array.size_modify]

theorem modifyIndividual_eq_self {i : IndividualId} {f : Individual → Individual}
    (h : i ∈ w.individualIds → f (w.getIndividual i) = w.getIndividual i) :
    w.modifyIndividual i f = w := by
  have hmodify : w.individuals.modify i.index f = w.individuals := by
    refine Array.ext_getElem? fun n => ?_
    rw [Array.getElem?_modify]
    split
    · next hn =>
      subst hn
      cases hd : w.individuals[i.index]? with
      | none => rfl
      | some d =>
        have hi : i ∈ w.individualIds := by rw [mem_individualIds, individual?, hd]; rfl
        have hf := h hi
        rw [getIndividual, individual?, hd, Option.getD_some] at hf
        rw [Option.map_some, hf]
    · rfl
  rw [modifyIndividual, hmodify]

theorem statesSame_inferType (w : World) (i : IndividualId) (c : ClassId) :
    w.StatesSame (w.inferType i c) where
  others := rfl
  individualIds := individualIds_modifyIndividual w i _
  isA := fun j => by
    rw [inferType, getIndividual_modifyIndividual]
    split
    · split <;> rfl
    · rfl
  assertedValues := fun s p => by
    rw [World.assertedValues, World.assertedValues, inferType, getIndividual_modifyIndividual]
    split
    · split <;> rfl
    · rfl

theorem statesSame_inferFact (w : World) (f : Fact) : w.StatesSame (w.inferFact f) where
  others := rfl
  individualIds := individualIds_modifyIndividual w f.subject _
  isA := fun j => by
    rw [inferFact, getIndividual_modifyIndividual]
    split
    · split <;> rfl
    · rfl
  assertedValues := fun s p => by
    rw [World.assertedValues, World.assertedValues, inferFact, getIndividual_modifyIndividual]
    split
    · split <;> rfl
    · rfl

theorem mem_directTypes_inferType {i j : IndividualId} {c d : ClassId} :
    d ∈ (w.inferType i c).directTypes j ↔
      d ∈ w.directTypes j ∨ (j, d) = (i, c) ∧ i ∈ w.individualIds := by
  rw [mem_directTypes, (statesSame_inferType w i c).isA, mem_directTypes, inferType,
    getIndividual_modifyIndividual]
  split
  · next hij =>
    obtain ⟨rfl, hi⟩ := hij
    split
    · next hknown => grind
    · next hnew => grind
  · next hij => grind

theorem mem_values_inferType {i s : IndividualId} {c : ClassId} {p : PropertyId} {v : Value} :
    v ∈ (w.inferType i c).values s p ↔ v ∈ w.values s p := by
  rw [mem_values, (statesSame_inferType w i c).assertedValues, mem_values, inferType,
    getIndividual_modifyIndividual]
  split
  · split <;> rfl
  · rfl

theorem mem_values_inferFact {f : Fact} {s : IndividualId} {p : PropertyId} {v : Value} :
    v ∈ (w.inferFact f).values s p ↔
      v ∈ w.values s p ∨ ⟨s, p, v⟩ = f ∧ f.subject ∈ w.individualIds := by
  obtain ⟨t, q, u⟩ := f
  rw [mem_values, (statesSame_inferFact w _).assertedValues, mem_values, inferFact,
    getIndividual_modifyIndividual, World.assertedValues]
  dsimp only
  split
  · next hts =>
    obtain ⟨rfl, ht⟩ := hts
    split
    · next hknown => grind
    · next hnew =>
      rw [Assertions.mem_get_push]
      grind
  · next hts => grind

theorem mem_directTypes_inferFact {f : Fact} {i : IndividualId} {c : ClassId} :
    c ∈ (w.inferFact f).directTypes i ↔ c ∈ w.directTypes i := by
  rw [mem_directTypes, (statesSame_inferFact w f).isA, mem_directTypes, inferFact,
    getIndividual_modifyIndividual]
  split
  · split <;> rfl
  · rfl

/-! ### Merging a report -/

theorem statesSame_foldl {α : Type} {grow : World → α → World}
    (hgrow : ∀ (w : World) a, w.StatesSame (grow w a)) (as : List α) (w : World) :
    w.StatesSame (as.foldl grow w) := by
  induction as generalizing w with
  | nil => exact .refl w
  | cons a as ih =>
    rw [List.foldl_cons]
    exact (hgrow w a).trans (ih _)

theorem statesSame_inferTypes (w : World) (ts : List (IndividualId × ClassId)) :
    w.StatesSame (ts.foldl (fun w (i, c) => w.inferType i c) w) := by
  refine statesSame_foldl ?_ ts w
  exact fun w t => statesSame_inferType w t.1 t.2

/-- **A report changes nothing that is stated.** -/
theorem statesSame_applyInference (w : World) (r : InferenceReport) :
    w.StatesSame (w.applyInference r) :=
  (statesSame_inferTypes w _).trans (statesSame_foldl statesSame_inferFact _ _)

theorem mem_directTypes_inferTypes {ts : List (IndividualId × ClassId)} {i : IndividualId}
    {c : ClassId} : c ∈ (ts.foldl (fun w (i, c) => w.inferType i c) w).directTypes i ↔
      c ∈ w.directTypes i ∨ (i, c) ∈ ts ∧ i ∈ w.individualIds := by
  induction ts generalizing w with
  | nil => simp
  | cons t ts ih =>
    rw [List.foldl_cons, ih, mem_directTypes_inferType, (statesSame_inferType w _ _).individualIds,
      List.mem_cons]
    grind

theorem mem_values_inferTypes {ts : List (IndividualId × ClassId)} {s : IndividualId}
    {p : PropertyId} {v : Value} :
    v ∈ (ts.foldl (fun w (i, c) => w.inferType i c) w).values s p ↔ v ∈ w.values s p := by
  induction ts generalizing w with
  | nil => rfl
  | cons t ts ih => rw [List.foldl_cons, ih, mem_values_inferType]

theorem mem_directTypes_inferFacts {fs : List Fact} {i : IndividualId} {c : ClassId} :
    c ∈ (fs.foldl inferFact w).directTypes i ↔ c ∈ w.directTypes i := by
  induction fs generalizing w with
  | nil => rfl
  | cons f fs ih => rw [List.foldl_cons, ih, mem_directTypes_inferFact]

theorem mem_values_inferFacts {fs : List Fact} {s : IndividualId} {p : PropertyId} {v : Value} :
    v ∈ (fs.foldl inferFact w).values s p ↔
      v ∈ w.values s p ∨ ⟨s, p, v⟩ ∈ fs ∧ s ∈ w.individualIds := by
  induction fs generalizing w with
  | nil => simp
  | cons f fs ih =>
    rw [List.foldl_cons, ih, mem_values_inferFact, (statesSame_inferFact w f).individualIds,
      List.mem_cons]
    grind

/-- **The types that are known after a report is merged.** -/
theorem mem_directTypes_applyInference {r : InferenceReport} {i : IndividualId} {c : ClassId} :
    c ∈ (w.applyInference r).directTypes i ↔
      c ∈ w.directTypes i ∨ (i, c) ∈ r.inferredTypes ∧ i ∈ w.individualIds := by
  rw [applyInference, mem_directTypes_inferFacts, mem_directTypes_inferTypes]

/-- **The values that are known after a report is merged.** -/
theorem mem_values_applyInference {r : InferenceReport} {s : IndividualId} {p : PropertyId}
    {v : Value} : v ∈ (w.applyInference r).values s p ↔
      v ∈ w.values s p ∨ ⟨s, p, v⟩ ∈ r.inferredFacts ∧ s ∈ w.individualIds := by
  rw [applyInference, mem_values_inferFacts, mem_values_inferTypes,
    (statesSame_inferTypes w _).individualIds]

theorem inferType_eq_self {i : IndividualId} {c : ClassId} (h : c ∈ w.directTypes i) :
    w.inferType i c = w := by
  refine modifyIndividual_eq_self fun _ => ?_
  exact if_pos (mem_directTypes.mp h)

theorem inferFact_eq_self {f : Fact} (h : f.value ∈ w.values f.subject f.property) :
    w.inferFact f = w := by
  refine modifyIndividual_eq_self fun _ => ?_
  exact if_pos (mem_values.mp h)

/-- A report without news changes nothing. -/
theorem applyInference_eq_self {r : InferenceReport}
    (htypes : ∀ t ∈ r.inferredTypes, t.2 ∈ w.directTypes t.1)
    (hfacts : ∀ f ∈ r.inferredFacts, f.value ∈ w.values f.subject f.property) :
    w.applyInference r = w := by
  have hunchanged : ∀ {α : Type} {grow : World → α → World} (as : List α),
      (∀ a ∈ as, grow w a = w) → as.foldl grow w = w := by
    intro α grow as
    induction as with
    | nil => exact fun _ => rfl
    | cons a as ih =>
      intro h
      rw [List.foldl_cons, h a List.mem_cons_self]
      exact ih fun b hb => h b (List.mem_cons_of_mem _ hb)
  have htypes' : r.inferredTypes.foldl (fun w (i, c) => w.inferType i c) w = w :=
    hunchanged _ fun t ht => inferType_eq_self (htypes t ht)
  rw [applyInference, htypes']
  exact hunchanged _ fun f hf => inferFact_eq_self (hfacts f hf)

end World

/-- A report is about individuals of the ontology; there are no others that could keep it. -/
structure InferenceReport.ConcernsMembers (r : InferenceReport) (w : World) : Prop where
  types : ∀ t ∈ r.inferredTypes, t.1 ∈ w.individualIds
  facts : ∀ f ∈ r.inferredFacts, f.subject ∈ w.individualIds

end Ontology
