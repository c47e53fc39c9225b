import Mathlib.Data.List.Basic
import Mathlib.Data.List.Induction
import Ontology.Proofs.Inferred

/-!
# Merging a report

What was inferred about an individual is a list of types, and a list of values for each property.
A report adds to the ends of these lists what it says of the individual and is not known yet.  The
lists are read together with what is stated, each value once, so it does not matter whether a report
repeats itself, what is stated or what was inferred before.

## Main definitions

* `ListsOnce` — a list holds what another one does, without its repetitions.
* `InferenceReport.typesOf`, `InferenceReport.valuesOf` — what a report says of an individual.
* `Individual.InfersOnce` — nothing is inferred twice or both stated and inferred.

## Main results

* `listsOnce_freshNodes` — new nodes are listed where they occur first.
* `World.inferredTypes_applyInference`, `World.inferredValues_applyInference` — **what a report adds
  to the lists of an individual.**
* `World.applyInference_exact` — **a report is merged as a union, in order and once for all.**
-/

namespace Ontology

/-! ### Lists without repetitions -/

section ListsOnce

variable {α : Type} [DecidableEq α]

/-- A list holds the same as another one, each member once and where it occurs there first. -/
structure ListsOnce (all once : List α) : Prop where
  mem : ∀ a, a ∈ once ↔ a ∈ all
  ordered : once.Pairwise fun a b => all.idxOf a < all.idxOf b

theorem ListsOnce.nodup {all once : List α} (h : ListsOnce all once) : once.Nodup := by
  refine h.ordered.imp ?_
  rintro a b hab rfl
  exact Nat.lt_irrefl _ hab

/-- One node more is new unless it was there already. -/
theorem freshNodes_append_singleton (seen found : List α) (a : α) :
    freshNodes seen (found ++ [a]) =
      if a ∈ seen ∨ a ∈ found then freshNodes seen found else freshNodes seen found ++ [a] := by
  have hstep : freshNodes seen (found ++ [a]) =
      if a ∈ seen ∨ a ∈ freshNodes seen found then freshNodes seen found
      else freshNodes seen found ++ [a] := by
    rw [freshNodes, List.foldl_append]
    rfl
  have hiff : (a ∈ seen ∨ a ∈ freshNodes seen found) ↔ (a ∈ seen ∨ a ∈ found) := by
    rw [mem_freshNodes]
    tauto
  rw [hstep, if_congr hiff rfl rfl]

/-- One node more behind others, if it is not known. -/
theorem append_freshNodes_append_singleton {seen found : List α} {a : α} {known : Prop}
    [Decidable known] (hknown : known ↔ a ∈ seen ∨ a ∈ found) (old : List α) :
    (if ¬known then old ++ freshNodes seen found ++ [a] else old ++ freshNodes seen found) =
      old ++ freshNodes seen (found ++ [a]) := by
  rw [freshNodes_append_singleton]
  by_cases h : known
  · rw [if_neg (not_not_intro h), if_pos (hknown.mp h)]
  · rw [if_pos h, if_neg (mt hknown.mpr h), List.append_assoc]

/-- What is new is found once at its first place among what was not there before. -/
theorem freshNodes_eq_filter (seen found : List α) :
    freshNodes seen found = freshNodes [] (found.filter (· ∉ seen)) := by
  induction found using List.reverseRecOn with
  | nil => rfl
  | append_singleton found a ih =>
    rw [freshNodes_append_singleton, List.filter_append, ih]
    by_cases hseen : a ∈ seen
    · simp [hseen]
    · simp [hseen, freshNodes_append_singleton]

/-- **New nodes are listed where they occur first.** -/
theorem listsOnce_freshNodes (found : List α) : ListsOnce found (freshNodes [] found) where
  mem a := by simp [mem_freshNodes]
  ordered := by
    induction found using List.reverseRecOn with
    | nil => exact List.Pairwise.nil
    | append_singleton found a ih =>
      -- what was found already keeps its place
      have hkept : (freshNodes [] found).Pairwise fun b c =>
          (found ++ [a]).idxOf b < (found ++ [a]).idxOf c := by
        refine ih.imp_of_mem fun {b c} hb hc hbc => ?_
        rw [List.idxOf_append_of_mem (mem_freshNodes.mp hb).1,
          List.idxOf_append_of_mem (mem_freshNodes.mp hc).1]
        exact hbc
      rw [freshNodes_append_singleton]
      split
      · exact hkept
      · next hnew =>
        have ha : a ∉ found := fun ha => hnew (.inr ha)
        refine List.pairwise_append.mpr ⟨hkept, List.pairwise_singleton _ _, ?_⟩
        intro b hb c hc
        have hb : b ∈ found := (mem_freshNodes.mp hb).1
        rw [List.mem_singleton.mp hc, List.idxOf_append_of_mem hb,
          List.idxOf_append_of_notMem ha]
        exact Nat.lt_of_lt_of_le (List.idxOf_lt_length_iff.mpr hb) (Nat.le_add_right _ _)

/-- New nodes behind others that are pairwise different. -/
theorem nodup_append_freshNodes {seen old : List α} (found : List α) (hold : old.Nodup)
    (hseen : old ⊆ seen) : (old ++ freshNodes seen found).Nodup := by
  refine List.nodup_append.mpr ⟨hold, nodup_freshNodes _ _, ?_⟩
  rintro a ha b hb rfl
  exact (mem_freshNodes.mp hb).2 (hseen ha)

end ListsOnce

/-! ### What is said of an individual -/

namespace InferenceReport

/-- The types that a report has for an individual. -/
def typesOf (r : InferenceReport) (i : IndividualId) : List ClassId :=
  r.inferredTypes.filterMap fun t => if t.1 = i then some t.2 else none

/-- The values that a report has for an individual and a property. -/
def valuesOf (r : InferenceReport) (s : IndividualId) (p : PropertyId) : List Value :=
  r.inferredFacts.filterMap fun f => if f.subject = s ∧ f.property = p then some f.value else none

variable {r : InferenceReport}

theorem mem_typesOf {i : IndividualId} {c : ClassId} :
    c ∈ r.typesOf i ↔ (i, c) ∈ r.inferredTypes := by
  simp only [typesOf, List.mem_filterMap, Option.ite_none_right_eq_some, Option.some.injEq]
  constructor
  · rintro ⟨t, ht, rfl, rfl⟩
    exact ht
  · intro ht
    exact ⟨_, ht, rfl, rfl⟩

theorem mem_valuesOf {s : IndividualId} {p : PropertyId} {v : Value} :
    v ∈ r.valuesOf s p ↔ ⟨s, p, v⟩ ∈ r.inferredFacts := by
  simp only [valuesOf, List.mem_filterMap, Option.ite_none_right_eq_some, Option.some.injEq]
  constructor
  · rintro ⟨f, hf, ⟨rfl, rfl⟩, rfl⟩
    exact hf
  · intro hf
    exact ⟨_, hf, ⟨rfl, rfl⟩, rfl⟩

end InferenceReport

namespace Individual

/-- What is stated about an individual, without what was inferred. -/
def stated (d : Individual) : Individual :=
  { d with inferredFacts := {}, inferredTypes := [] }

/-- Nothing is inferred twice about an individual, or both stated and inferred. -/
structure InfersOnce (d : Individual) : Prop where
  types : d.inferredTypes.Nodup
  newTypes : ∀ c ∈ d.inferredTypes, .named c ∉ d.isA
  values : ∀ p, (d.inferredFacts.get p).Nodup
  newValues : ∀ p, ∀ v ∈ d.inferredFacts.get p, v ∉ d.facts.get p

end Individual

namespace World

variable {w : World}

/-- **Values are listed once**, those that are stated before those that are inferred. -/
theorem listsOnce_values (w : World) (s : IndividualId) (p : PropertyId) :
    ListsOnce (w.assertedValues s p ++ (w.getIndividual s).inferredFacts.get p) (w.values s p) :=
  listsOnce_freshNodes _

/-! ### One entry of a report -/

theorem stated_inferType (w : World) (i j : IndividualId) (c : ClassId) :
    ((w.inferType i c).getIndividual j).stated = (w.getIndividual j).stated := by
  rw [inferType, getIndividual_modifyIndividual]
  split
  · split <;> rfl
  · rfl

theorem inferredFacts_inferType (w : World) (i j : IndividualId) (c : ClassId) :
    ((w.inferType i c).getIndividual j).inferredFacts = (w.getIndividual j).inferredFacts := by
  rw [inferType, getIndividual_modifyIndividual]
  split
  · split <;> rfl
  · rfl

theorem stated_inferFact (w : World) (f : Fact) (s : IndividualId) :
    ((w.inferFact f).getIndividual s).stated = (w.getIndividual s).stated := by
  rw [inferFact, getIndividual_modifyIndividual]
  split
  · split <;> rfl
  · rfl

theorem inferredTypes_inferFact (w : World) (f : Fact) (s : IndividualId) :
    ((w.inferFact f).getIndividual s).inferredTypes = (w.getIndividual s).inferredTypes := by
  rw [inferFact, getIndividual_modifyIndividual]
  split
  · split <;> rfl
  · rfl

/-- A type is added behind the others if it is not known. -/
theorem inferredTypes_inferType {i j : IndividualId} {c : ClassId} (hj : j ∈ w.individualIds) :
    ((w.inferType i c).getIndividual j).inferredTypes =
      if i = j ∧ c ∉ w.directTypes j then (w.getIndividual j).inferredTypes ++ [c]
      else (w.getIndividual j).inferredTypes := by
  rw [inferType, getIndividual_modifyIndividual]
  simp only [mem_directTypes]
  by_cases hij : i = j
  · rw [if_pos ⟨hij, hj⟩]
    split
    · next hknown => rw [if_neg fun h => h.2 hknown]
    · next hnew => rw [if_pos ⟨hij, hnew⟩]
  · rw [if_neg fun h => hij h.1, if_neg fun h => hij h.1]

/-- A value is added behind the others of its property if it is not known. -/
theorem inferredValues_inferFact {f : Fact} {s : IndividualId} {p : PropertyId}
    (hs : s ∈ w.individualIds) :
    ((w.inferFact f).getIndividual s).inferredFacts.get p =
      if (f.subject = s ∧ f.property = p) ∧ f.value ∉ w.values s p then
        (w.getIndividual s).inferredFacts.get p ++ [f.value]
      else (w.getIndividual s).inferredFacts.get p := by
  rw [inferFact, getIndividual_modifyIndividual]
  simp only [mem_values, assertedValues]
  by_cases hsubject : f.subject = s
  · rw [if_pos ⟨hsubject, hs⟩]
    split
    · next hknown =>
      rw [if_neg]
      rintro ⟨⟨-, rfl⟩, hnew⟩
      exact hnew hknown
    · next hnew =>
      rw [Assertions.get_push]
      by_cases hp : p = f.property
      · subst hp
        rw [if_pos rfl, if_pos ⟨⟨hsubject, rfl⟩, hnew⟩]
      · rw [if_neg hp, if_neg fun h => hp h.1.2.symm]
  · rw [if_neg fun h => hsubject h.1, if_neg fun h => hsubject h.1.1]

/-! ### All entries of a report -/

/-- What no entry changes a report does not change. -/
theorem foldl_unchanged {α β : Type} {grow : World → α → World} {v : World → β}
    (hgrow : ∀ (w : World) a, v (grow w a) = v w) (as : List α) (w : World) :
    v (as.foldl grow w) = v w := by
  induction as generalizing w with
  | nil => rfl
  | cons a as ih => rw [List.foldl_cons, ih, hgrow]

theorem stated_applyInference (w : World) (r : InferenceReport) (i : IndividualId) :
    ((w.applyInference r).getIndividual i).stated = (w.getIndividual i).stated := by
  have hfacts := foldl_unchanged (v := fun w => (w.getIndividual i).stated)
    (fun w f => stated_inferFact w f i) r.inferredFacts
  have htypes := foldl_unchanged (v := fun w => (w.getIndividual i).stated)
    (fun w (t : IndividualId × ClassId) => stated_inferType w t.1 i t.2) r.inferredTypes w
  rw [applyInference, hfacts]
  exact htypes

/-- **The types of a report are put behind those that were inferred before**, unless they are
known. -/
theorem inferredTypes_applyInference {r : InferenceReport} {i : IndividualId}
    (hi : i ∈ w.individualIds) :
    ((w.applyInference r).getIndividual i).inferredTypes =
      (w.getIndividual i).inferredTypes ++ freshNodes (w.directTypes i) (r.typesOf i) := by
  have hfacts := foldl_unchanged (v := fun w => (w.getIndividual i).inferredTypes)
    (fun w f => inferredTypes_inferFact w f i) r.inferredFacts
  rw [applyInference, hfacts, InferenceReport.typesOf]
  induction r.inferredTypes using List.reverseRecOn with
  | nil => exact (List.append_nil _).symm
  | append_singleton ts t ih =>
    have hi' := (statesSame_inferTypes w ts).individualIds ▸ hi
    rw [List.foldl_append, List.foldl_cons, List.foldl_nil, inferredTypes_inferType hi', ih,
      List.filterMap_append]
    by_cases ht : t.1 = i
    · have hsingle : [t].filterMap (fun t => if t.1 = i then some t.2 else none) = [t.2] := by
        simp [ht]
      have hmem : (i, t.2) ∈ ts ∧ i ∈ w.individualIds ↔
          t.2 ∈ ts.filterMap fun t => if t.1 = i then some t.2 else none := by
        simp [hi]
      have hknown := mem_directTypes_inferTypes.trans (or_congr_right hmem)
      rw [hsingle, ← append_freshNodes_append_singleton hknown]
      simp only [ht, true_and]
    · have hnone : [t].filterMap (fun t => if t.1 = i then some t.2 else none) = [] := by
        simp [ht]
      rw [hnone, List.append_nil, if_neg fun h => ht h.1]

theorem inferredFacts_inferTypes (w : World) (ts : List (IndividualId × ClassId))
    (s : IndividualId) :
    ((ts.foldl (fun w (i, c) => w.inferType i c) w).getIndividual s).inferredFacts =
      (w.getIndividual s).inferredFacts :=
  foldl_unchanged (v := fun w => (w.getIndividual s).inferredFacts)
    (fun w (t : IndividualId × ClassId) => inferredFacts_inferType w t.1 s t.2) ts w

/-- **The values of a report are put behind those that were inferred before**, unless they are
known. -/
theorem inferredValues_applyInference {r : InferenceReport} {s : IndividualId} {p : PropertyId}
    (hs : s ∈ w.individualIds) :
    ((w.applyInference r).getIndividual s).inferredFacts.get p =
      (w.getIndividual s).inferredFacts.get p ++ freshNodes (w.values s p) (r.valuesOf s p) := by
  have htypes : w.StatesSame _ := statesSame_inferTypes w r.inferredTypes
  rw [applyInference, InferenceReport.valuesOf]
  induction r.inferredFacts using List.reverseRecOn with
  | nil =>
    rw [List.foldl_nil, inferredFacts_inferTypes]
    exact (List.append_nil _).symm
  | append_singleton fs f ih =>
    have hs' := (htypes.trans (statesSame_foldl statesSame_inferFact fs _)).individualIds ▸ hs
    rw [List.foldl_append, List.foldl_cons, List.foldl_nil, inferredValues_inferFact hs', ih,
      List.filterMap_append]
    by_cases hf : f.subject = s ∧ f.property = p
    · have hsingle : [f].filterMap
          (fun f => if f.subject = s ∧ f.property = p then some f.value else none) = [f.value] := by
        simp [hf]
      have hmem : ⟨s, p, f.value⟩ ∈ fs ↔ f.value ∈ fs.filterMap fun f =>
          if f.subject = s ∧ f.property = p then some f.value else none :=
        (InferenceReport.mem_valuesOf (r := { inferredFacts := fs })).symm
      have hknown := mem_values_inferFacts.trans (or_congr mem_values_inferTypes
        ((and_iff_left (htypes.individualIds ▸ hs)).trans hmem))
      rw [hsingle, ← append_freshNodes_append_singleton hknown]
      simp only [hf, and_self, true_and]
    · have hnone : [f].filterMap
          (fun f => if f.subject = s ∧ f.property = p then some f.value else none) = [] := by
        simp [hf]
      rw [hnone, List.append_nil, if_neg fun h => hf h.1]

/-- What is inferred about an individual is still inferred once. -/
theorem infersOnce_applyInference {r : InferenceReport} {i : IndividualId}
    (hi : i ∈ w.individualIds) (h : (w.getIndividual i).InfersOnce) :
    ((w.applyInference r).getIndividual i).InfersOnce := by
  have hstates := statesSame_applyInference w r
  constructor
  · rw [inferredTypes_applyInference hi]
    exact nodup_append_freshNodes _ h.types fun c hc => mem_directTypes.mpr (.inr hc)
  · intro c hc
    rw [inferredTypes_applyInference hi, List.mem_append] at hc
    rw [hstates.isA]
    rcases hc with hold | hnew
    · exact h.newTypes c hold
    · exact fun hstated => (mem_freshNodes.mp hnew).2 (mem_directTypes.mpr (.inl hstated))
  · intro p
    rw [inferredValues_applyInference hi]
    exact nodup_append_freshNodes _ (h.values p) fun v hv => mem_values.mpr (.inr hv)
  · intro p v hv
    rw [inferredValues_applyInference hi, List.mem_append] at hv
    have hasserted := hstates.assertedValues i p
    rw [assertedValues, assertedValues] at hasserted
    rw [hasserted]
    rcases hv with hold | hnew
    · exact h.newValues p v hold
    · exact fun hstated => (mem_freshNodes.mp hnew).2 (mem_values.mpr (.inl hstated))

/-! ### Reports on members -/

theorem listsOnce_freshNodes_filter {α : Type} [DecidableEq α] (seen found : List α) :
    ListsOnce (found.filter (· ∉ seen)) (freshNodes seen found) := by
  rw [freshNodes_eq_filter]
  exact listsOnce_freshNodes _

/-- An individual that is not in the ontology stays unknown. -/
theorem getIndividual_applyInference_of_notMem {i : IndividualId} (r : InferenceReport)
    (hi : i ∉ w.individualIds) :
    (w.applyInference r).getIndividual i = { name := "", isA := [] } :=
  getIndividual_of_notMem ((statesSame_applyInference w r).individualIds ▸ hi)

theorem typesOf_of_notMem {r : InferenceReport} {i : IndividualId} (h : r.ConcernsMembers w)
    (hi : i ∉ w.individualIds) : r.typesOf i = [] := by
  refine List.eq_nil_iff_forall_not_mem.mpr fun c hc => hi ?_
  exact h.types _ (InferenceReport.mem_typesOf.mp hc)

theorem valuesOf_of_notMem {r : InferenceReport} {s : IndividualId} {p : PropertyId}
    (h : r.ConcernsMembers w) (hs : s ∉ w.individualIds) : r.valuesOf s p = [] := by
  refine List.eq_nil_iff_forall_not_mem.mpr fun v hv => hs ?_
  exact h.facts _ (InferenceReport.mem_valuesOf.mp hv)

/-- The types that are new are put behind the others, each once. -/
theorem exists_addedTypes {r : InferenceReport} (h : r.ConcernsMembers w) (i : IndividualId) :
    ∃ added, ((w.applyInference r).getIndividual i).inferredTypes =
        (w.getIndividual i).inferredTypes ++ added ∧
      ListsOnce ((r.typesOf i).filter (· ∉ w.directTypes i)) added := by
  refine ⟨freshNodes (w.directTypes i) (r.typesOf i), ?_, listsOnce_freshNodes_filter _ _⟩
  by_cases hi : i ∈ w.individualIds
  · exact inferredTypes_applyInference hi
  · rw [getIndividual_applyInference_of_notMem r hi, getIndividual_of_notMem hi,
      typesOf_of_notMem h hi]
    rfl

/-- The values that are new are put behind the others, each once. -/
theorem exists_addedValues {r : InferenceReport} (h : r.ConcernsMembers w) (s : IndividualId)
    (p : PropertyId) :
    ∃ added, ((w.applyInference r).getIndividual s).inferredFacts.get p =
        (w.getIndividual s).inferredFacts.get p ++ added ∧
      ListsOnce ((r.valuesOf s p).filter (· ∉ w.values s p)) added := by
  refine ⟨freshNodes (w.values s p) (r.valuesOf s p), ?_, listsOnce_freshNodes_filter _ _⟩
  by_cases hs : s ∈ w.individualIds
  · exact inferredValues_applyInference hs
  · rw [getIndividual_applyInference_of_notMem r hs, getIndividual_of_notMem hs,
      valuesOf_of_notMem h hs]
    rfl

/-- **A report is merged as a union, in order and once for all.**  Nothing that is stated changes.
What the report has and is not known yet is put behind what was inferred before, each entry once and
in the order of the report; afterwards the whole report is known and nothing else has become known.
What was inferred once stays so, the values of a property are listed once with those that are stated
in front, and the same report has nothing to add a second time. -/
theorem applyInference_exact {r : InferenceReport} {w' : World} (h : r.ConcernsMembers w)
    (hmerge : w.applyInference r = w') :
    (w' = { w with individuals := w'.individuals } ∧ w'.individualIds = w.individualIds ∧
      ∀ i, (w'.getIndividual i).stated = (w.getIndividual i).stated) ∧
    (∀ i, ∃ added, (w'.getIndividual i).inferredTypes = (w.getIndividual i).inferredTypes ++ added ∧
      ListsOnce ((r.typesOf i).filter (· ∉ w.directTypes i)) added) ∧
    (∀ s p, ∃ added, (w'.getIndividual s).inferredFacts.get p =
        (w.getIndividual s).inferredFacts.get p ++ added ∧
      ListsOnce ((r.valuesOf s p).filter (· ∉ w.values s p)) added) ∧
    (∀ i c, c ∈ w'.directTypes i ↔ c ∈ w.directTypes i ∨ (i, c) ∈ r.inferredTypes) ∧
    (∀ s p v, v ∈ w'.values s p ↔ v ∈ w.values s p ∨ ⟨s, p, v⟩ ∈ r.inferredFacts) ∧
    (∀ i, (w.getIndividual i).InfersOnce → (w'.getIndividual i).InfersOnce) ∧
    (∀ (u : World) s p, ListsOnce
      (u.assertedValues s p ++ (u.getIndividual s).inferredFacts.get p) (u.values s p)) ∧
    w'.applyInference r = w' := by
  subst hmerge
  have hstates := statesSame_applyInference w r
  have htypes : ∀ i c, c ∈ (w.applyInference r).directTypes i ↔
      c ∈ w.directTypes i ∨ (i, c) ∈ r.inferredTypes := fun i c => by
    rw [mem_directTypes_applyInference, and_iff_left_of_imp (h.types (i, c))]
  have hvalues : ∀ s p v, v ∈ (w.applyInference r).values s p ↔
      v ∈ w.values s p ∨ ⟨s, p, v⟩ ∈ r.inferredFacts := fun s p v => by
    rw [mem_values_applyInference, and_iff_left_of_imp (h.facts ⟨s, p, v⟩)]
  refine ⟨⟨hstates.others, hstates.individualIds, stated_applyInference w r⟩,
    exists_addedTypes h, exists_addedValues h, htypes, hvalues, fun i honce => ?_,
    listsOnce_values, ?_⟩
  · by_cases hi : i ∈ w.individualIds
    · exact infersOnce_applyInference hi honce
    · rwa [getIndividual_applyInference_of_notMem r hi, ← getIndividual_of_notMem hi]
  · exact applyInference_eq_self (fun t ht => (htypes t.1 t.2).mpr (.inr ht))
      fun f hf => (hvalues f.subject f.property f.value).mpr (.inr hf)

/-! ### A guest list -/

/-- One host and one guest: it is stated twice that the host greets the guest, and it was inferred
that the guest is a person. -/
def reception : World where
  iri := "http://example.org/reception#"
  classes := #[{ name := "Person" }, { name := "Guest" }]
  properties := #[{ name := "greets", kind := .object }]
  individuals := #[
    { name := "host"
      isA := [.named ⟨0⟩]
      facts := ({} : Assertions).push ⟨0⟩ (.individual ⟨1⟩) |>.push ⟨0⟩ (.individual ⟨1⟩) },
    { name := "guest", isA := [.named ⟨1⟩], inferredTypes := [⟨0⟩] }]

/-- The report repeats itself, what is stated and what was inferred. -/
def receptionReport : InferenceReport where
  inferredTypes := [(⟨0⟩, ⟨1⟩), (⟨1⟩, ⟨0⟩), (⟨0⟩, ⟨0⟩), (⟨0⟩, ⟨1⟩)]
  inferredFacts := [⟨⟨0⟩, ⟨0⟩, .individual ⟨0⟩⟩, ⟨⟨0⟩, ⟨0⟩, .individual ⟨1⟩⟩,
    ⟨⟨0⟩, ⟨0⟩, .individual ⟨0⟩⟩, ⟨⟨1⟩, ⟨0⟩, .individual ⟨0⟩⟩]

/-- The host becomes a guest and greets both, and the guest greets the host. -/
theorem applyInference_exact_reception :
    receptionReport.ConcernsMembers reception ∧
    (reception.applyInference receptionReport).values ⟨0⟩ ⟨0⟩ = [.individual ⟨1⟩, .individual ⟨0⟩] ∧
    ⟨1⟩ ∈ (reception.applyInference receptionReport).directTypes ⟨0⟩ ∧
    .individual ⟨0⟩ ∈ (reception.applyInference receptionReport).values ⟨1⟩ ⟨0⟩ ∧
    (reception.applyInference receptionReport).applyInference receptionReport =
      reception.applyInference receptionReport := by
  have hmembers : receptionReport.ConcernsMembers reception := ⟨by decide, by decide⟩
  obtain ⟨-, -, -, htypes, hvalues, -, -, hagain⟩ := applyInference_exact hmembers rfl
  refine ⟨hmembers, by decide, (htypes _ _).mpr (.inr ?_), (hvalues _ _ _).mpr (.inr ?_), hagain⟩
  · decide
  · decide

end World

end Ontology
