import Mathlib.Tactic.TFAE
import Ontology.Proofs.Merging
import Ontology.Reasoning.IndexedInterpretation

/-!
# Tables and lists of facts

An indexed interpretation answers from its tables what an interpretation collects from its facts.
Every fact that is new is entered into each table, so all answers agree, and each of them is in the
order in which the facts came.

## Main definitions

* `IndexedInterpretation.Indexes` — the tables hold what an interpretation would collect.
* `IndexedInterpretation.Records` — all answers agree with what was added.

## Main results

* `filterMap_freshNodes` — what is collected from new facts is what is new among what is collected.
* `IndexedInterpretation.Indexes.add` — a step keeps tables and lists together.
* `IndexedInterpretation.records_ofList` — **whatever is added, in whatever order, all answers
  agree.**
-/

namespace Ontology

/-! ### Collecting from facts -/

/-- What each fact gives is new when the fact is, if no two facts give the same. -/
theorem filterMap_freshNodes {α β : Type} [DecidableEq α] [DecidableEq β] {g : α → Option β}
    (hg : ∀ a b c, g a = some c → g b = some c → a = b) (found : List α) :
    (freshNodes [] found).filterMap g = freshNodes [] (found.filterMap g) := by
  induction found using List.reverseRecOn with
  | nil => rfl
  | append_singleton found a ih =>
    rw [freshNodes_append_singleton, List.filterMap_append]
    cases ha : g a with
    | none =>
      have hnone : [a].filterMap g = [] := by simp [ha]
      rw [hnone, List.append_nil, ← ih]
      split
      · rfl
      · rw [List.filterMap_append, hnone, List.append_nil]
    | some c =>
      have hsome : [a].filterMap g = [c] := by simp [ha]
      have hmem : c ∈ found.filterMap g ↔ a ∈ found := by
        rw [List.mem_filterMap]
        constructor
        · rintro ⟨b, hb, hc⟩
          exact hg b a c hc ha ▸ hb
        · exact fun h => ⟨a, h, ha⟩
      rw [hsome, freshNodes_append_singleton, ← ih]
      simp only [List.not_mem_nil, false_or, hmem]
      split
      · rfl
      · rw [List.filterMap_append, hsome]

/-- What facts give is listed once, in the order in which they were added. -/
theorem listsOnce_filterMap_freshNodes {α β : Type} [DecidableEq α] [DecidableEq β]
    {g : α → Option β} (hg : ∀ a b c, g a = some c → g b = some c → a = b) (found : List α) :
    ListsOnce (found.filterMap g) ((freshNodes [] found).filterMap g) := by
  rw [filterMap_freshNodes hg]
  exact listsOnce_freshNodes _

/-- A list that takes up what it does not hold holds what was new. -/
theorem eq_freshNodes_append_singleton {α : Type} [DecidableEq α] {found old next : List α} {a : α}
    (hold : old = freshNodes [] found) (hknown : a ∈ old → next = old)
    (hnew : a ∉ old → next = old ++ [a]) : next = freshNodes [] (found ++ [a]) := by
  have hmem : a ∈ old ↔ a ∈ found := by
    rw [hold, mem_freshNodes]
    simp
  rw [freshNodes_append_singleton, ← hold]
  simp only [List.not_mem_nil, false_or]
  split
  · next h => exact hknown (hmem.mpr h)
  · next h => exact hnew (mt hmem.mp h)

namespace Derived

/-- What is added is a fact. -/
def fact? : Derived → Option Fact
  | .fact f => some f
  | .type _ _ => none

/-- What is added is a type. -/
def type? : Derived → Option (IndividualId × ClassId)
  | .type i c => some (i, c)
  | .fact _ => none

end Derived

/-! ### What interpretations list -/

namespace Interpretation

variable {I : Interpretation}

theorem addDerived_append_singleton (ds : List Derived) (d : Derived) :
    I.addDerived (ds ++ [d]) = (I.addDerived ds).addDerived [d] := by
  rw [addDerived, List.foldl_append]
  rfl

/-- Facts are listed once, in the order in which they were added. -/
theorem facts_addDerived (ds : List Derived) :
    (({} : Interpretation).addDerived ds).facts = freshNodes [] (ds.filterMap Derived.fact?) := by
  induction ds using List.reverseRecOn with
  | nil => rfl
  | append_singleton ds d ih =>
    rw [addDerived_append_singleton, List.filterMap_append]
    cases d with
    | type i c =>
      have hnone : [Derived.type i c].filterMap Derived.fact? = [] := rfl
      rw [hnone, List.append_nil, ← ih]
      exact facts_addType
    | fact f =>
      refine eq_freshNodes_append_singleton ih (fun h => ?_) fun h => ?_
      · exact congrArg facts (addFact_eq_self h)
      · exact congrArg facts (congrArg Prod.fst (if_neg h))

/-- Types are listed once, in the order in which they were added. -/
theorem types_addDerived (ds : List Derived) :
    (({} : Interpretation).addDerived ds).types = freshNodes [] (ds.filterMap Derived.type?) := by
  induction ds using List.reverseRecOn with
  | nil => rfl
  | append_singleton ds d ih =>
    rw [addDerived_append_singleton, List.filterMap_append]
    cases d with
    | fact f =>
      have hnone : [Derived.fact f].filterMap Derived.type? = [] := rfl
      rw [hnone, List.append_nil, ← ih]
      exact types_addFact
    | type i c =>
      refine eq_freshNodes_append_singleton ih (fun h => ?_) fun h => ?_
      · exact congrArg types (addType_eq_self h)
      · exact congrArg types (congrArg Prod.fst (if_neg h))

theorem listsOnce_facts_addDerived (ds : List Derived) :
    ListsOnce (ds.filterMap Derived.fact?) (({} : Interpretation).addDerived ds).facts := by
  rw [facts_addDerived]
  exact listsOnce_freshNodes _

/-- What is collected from the facts is listed once, too, if no two facts give the same. -/
theorem listsOnce_filterMap_facts {β : Type} [DecidableEq β] {g : Fact → Option β}
    (hg : ∀ a b c, g a = some c → g b = some c → a = b) (ds : List Derived) :
    ListsOnce ((ds.filterMap Derived.fact?).filterMap g)
      ((({} : Interpretation).addDerived ds).facts.filterMap g) := by
  rw [facts_addDerived]
  exact listsOnce_filterMap_freshNodes hg _

theorem listsOnce_types_addDerived (ds : List Derived) :
    ListsOnce (ds.filterMap Derived.type?) (({} : Interpretation).addDerived ds).types := by
  rw [types_addDerived]
  exact listsOnce_freshNodes _

/-- So is what is collected from the types. -/
theorem listsOnce_filterMap_types {β : Type} [DecidableEq β]
    {g : IndividualId × ClassId → Option β}
    (hg : ∀ a b c, g a = some c → g b = some c → a = b) (ds : List Derived) :
    ListsOnce ((ds.filterMap Derived.type?).filterMap g)
      ((({} : Interpretation).addDerived ds).types.filterMap g) := by
  rw [types_addDerived]
  exact listsOnce_filterMap_freshNodes hg _

/-- What holds is what was added. -/
theorem holds_addDerived_empty (ds : List Derived) (d : Derived) :
    (({} : Interpretation).addDerived ds).Holds d ↔ d ∈ ds := by
  rw [holds_addDerived, or_iff_right]
  cases d <;> exact List.not_mem_nil

end Interpretation

namespace IndexedInterpretation

variable {X : IndexedInterpretation} {I : Interpretation}

/-! ### Tables that hold what is collected -/

/-- Tables hold what an interpretation collects from its facts and types. -/
structure Indexes (X : IndexedInterpretation) (I : Interpretation) : Prop where
  facts : X.facts = I.facts
  hasFact : ∀ f, X.hasFact f = I.hasFact f
  values : ∀ p s, X.values p s = I.values p s
  subjects : ∀ p o, X.subjects p o = I.subjects p o
  factsOf : ∀ p, X.factsOf p = I.factsOf p
  types : X.types = I.types
  hasType : ∀ i c, X.hasType i c = I.hasType i c

theorem Indexes.instancesOf (h : X.Indexes I) (c : ClassId) :
    X.instancesOf c = I.instancesOf c := by
  rw [IndexedInterpretation.instancesOf, h.types]
  rfl

theorem Indexes.related (h : X.Indexes I) (r : PropertyExpression) (s : IndividualId) :
    X.related r s = I.related r s := by
  cases r with
  | named p => rw [IndexedInterpretation.related, Interpretation.related, h.values]
  | inverse p => rw [IndexedInterpretation.related, Interpretation.related, h.subjects]

theorem indexes_empty : ({} : IndexedInterpretation).Indexes {} where
  facts := rfl
  hasFact _ := by simp [hasFact, Interpretation.hasFact]
  values _ _ := rfl
  subjects _ _ := rfl
  factsOf _ := rfl
  types := rfl
  hasType _ _ := by simp [hasType, Interpretation.hasType]

/-- A fact is entered into the tables as it is into the list. -/
theorem Indexes.addFact (h : X.Indexes I) (f : Fact) :
    (X.addFact f).1.Indexes (I.addFact f).1 ∧ (X.addFact f).2 = (I.addFact f).2 := by
  rw [IndexedInterpretation.addFact, Interpretation.addFact]
  have hknown : X.hasFact f = true ↔ f ∈ I.facts := by
    rw [h.hasFact, Interpretation.hasFact, decide_eq_true_iff]
  by_cases hf : f ∈ I.facts
  · rw [if_pos hf, if_pos (hknown.mpr hf)]
    exact ⟨h, rfl⟩
  rw [if_neg hf, if_neg (mt hknown.mp hf)]
  refine ⟨⟨?_, fun g => ?_, fun p s => ?_, fun p o => ?_, fun p => ?_, h.types, h.hasType⟩, rfl⟩
  · rw [h.facts]
  · have hold : (g.property, g.value) ∈ X.known.get g.subject ↔ g ∈ I.facts := by
      simpa [IndexedInterpretation.hasFact, Interpretation.hasFact] using h.hasFact g
    have hnew : ((g.property, g.value) ∈ if f.subject = g.subject then [(f.property, f.value)]
        else []) ↔ g = f := by
      obtain ⟨s, p, v⟩ := f
      obtain ⟨s', p', v'⟩ := g
      rw [Fact.mk.injEq]
      split
      · next hs => simp [show s' = s from hs.symm]
      · next hs => simp [show s' ≠ s from Ne.symm hs]
    simp only [IndexedInterpretation.hasFact, Interpretation.hasFact, Table.get_push,
      List.mem_append, hold, hnew, List.mem_singleton]
  · have hold := h.values p s
    simp only [IndexedInterpretation.values, Interpretation.values, Table.get_push,
      List.filterMap_append, Prod.mk.injEq] at hold ⊢
    rw [hold]
    split <;> simp [*]
  · have hold := h.subjects p o
    simp only [IndexedInterpretation.subjects, Interpretation.subjects,
      List.filterMap_append] at hold ⊢
    rw [← hold]
    cases hvalue : f.value with
    | individual i =>
      rw [Table.get_push]
      simp only [Prod.mk.injEq]
      split <;> simp [*]
    | expression e => simp [hvalue]
    | literal l => simp [hvalue]
  · have hold := h.factsOf p
    simp only [IndexedInterpretation.factsOf, Interpretation.factsOf, Table.get_push,
      List.filterMap_append] at hold ⊢
    rw [hold]
    split <;> simp [*]

/-- So is a type. -/
theorem Indexes.addType (h : X.Indexes I) (i : IndividualId) (c : ClassId) :
    (X.addType i c).1.Indexes (I.addType i c).1 ∧ (X.addType i c).2 = (I.addType i c).2 := by
  rw [IndexedInterpretation.addType, Interpretation.addType]
  have hknown : X.hasType i c = true ↔ (i, c) ∈ I.types := by
    rw [h.hasType, Interpretation.hasType_iff]
  by_cases hc : (i, c) ∈ I.types
  · rw [if_pos hc, if_pos (hknown.mpr hc)]
    exact ⟨h, rfl⟩
  rw [if_neg hc, if_neg (mt hknown.mp hc)]
  refine ⟨⟨h.facts, h.hasFact, h.values, h.subjects, h.factsOf, ?_, fun j d => ?_⟩, rfl⟩
  · rw [h.types]
  · have hold : d ∈ X.knownTypes.get j ↔ (j, d) ∈ I.types := by
      simpa [IndexedInterpretation.hasType, Interpretation.hasType] using h.hasType j d
    have hnew : (d ∈ if i = j then [c] else []) ↔ (j, d) = (i, c) := by
      split
      · next hi => simp [hi]
      · next hi => simp [Ne.symm hi]
    simp only [IndexedInterpretation.hasType, Interpretation.hasType, Table.get_push,
      List.mem_append, hold, hnew, List.mem_singleton]

/-- **Tables and lists stay together** when something is added, and tell alike whether it is new. -/
theorem Indexes.add (h : X.Indexes I) (d : Derived) :
    (X.add d).1.Indexes (I.addDerived [d]) ∧ ((X.add d).2 = true ↔ ¬I.Holds d) := by
  cases d with
  | fact f =>
    refine ⟨(h.addFact f).1, ?_⟩
    have hanswer : (X.add (.fact f)).2 = (I.addFact f).2 := (h.addFact f).2
    rw [hanswer, Interpretation.addFact, Interpretation.Holds]
    split <;> simp [*]
  | type i c =>
    refine ⟨(h.addType i c).1, ?_⟩
    have hanswer : (X.add (.type i c)).2 = (I.addType i c).2 := (h.addType i c).2
    rw [hanswer, Interpretation.addType, Interpretation.Holds]
    split <;> simp [*]

/-- So they do whatever is added one after the other. -/
theorem indexes_ofList (ds : List Derived) :
    (ofList ds).Indexes (({} : Interpretation).addDerived ds) := by
  induction ds using List.reverseRecOn with
  | nil => exact indexes_empty
  | append_singleton ds d ih =>
    rw [ofList, List.foldl_append, Interpretation.addDerived_append_singleton]
    exact (ih.add d).1

/-! ### What was added -/

/-- All answers agree with the facts and types that were added one after the other. -/
structure Records (X : IndexedInterpretation) (ds : List Derived) : Prop where
  facts : ListsOnce (ds.filterMap Derived.fact?) X.facts
  values : ∀ p s, ListsOnce
    ((ds.filterMap Derived.fact?).filterMap fun f =>
      if f.property = p ∧ f.subject = s then some f.value else none) (X.values p s)
  subjects : ∀ p o, ListsOnce
    ((ds.filterMap Derived.fact?).filterMap fun f =>
      if f.property = p ∧ f.value = .individual o then some f.subject else none) (X.subjects p o)
  factsOf : ∀ p, ListsOnce
    ((ds.filterMap Derived.fact?).filterMap fun f =>
      if f.property = p then some (f.subject, f.value) else none) (X.factsOf p)
  types : ListsOnce (ds.filterMap Derived.type?) X.types
  instancesOf : ∀ c, ListsOnce
    ((ds.filterMap Derived.type?).filterMap fun t => if t.2 = c then some t.1 else none)
    (X.instancesOf c)
  tfae_hasFact : ∀ s p v, [X.hasFact ⟨s, p, v⟩ = true, v ∈ X.values p s, (s, v) ∈ X.factsOf p,
    ⟨s, p, v⟩ ∈ X.facts, Derived.fact ⟨s, p, v⟩ ∈ ds].TFAE
  mem_subjects : ∀ s p o, s ∈ X.subjects p o ↔ X.hasFact ⟨s, p, .individual o⟩ = true
  tfae_hasType : ∀ i c, [X.hasType i c = true, i ∈ X.instancesOf c, (i, c) ∈ X.types,
    Derived.type i c ∈ ds].TFAE
  /-- An entry is new unless it was added before. -/
  isNew : ∀ d, (X.add d).2 = true ↔ d ∉ ds
  /-- The two directions of a property are converses. -/
  related : ∀ p s o,
    Value.individual o ∈ X.related (.named p) s ↔ Value.individual s ∈ X.related (.inverse p) o

/-- **Whatever is added, in whatever order, all answers agree**, and they are those of the
interpretation that collects them from its lists. -/
theorem records_ofList (ds : List Derived) :
    (ofList ds).Records ds ∧ (ofList ds).Indexes (({} : Interpretation).addDerived ds) := by
  have h := indexes_ofList ds
  have hfact (s : IndividualId) (p : PropertyId) (v : Value) :
      (ofList ds).hasFact ⟨s, p, v⟩ = true ↔
        ⟨s, p, v⟩ ∈ (({} : Interpretation).addDerived ds).facts := by
    rw [h.hasFact, Interpretation.hasFact, decide_eq_true_iff]
  refine ⟨?_, h⟩
  constructor
  case facts =>
    rw [h.facts]
    exact Interpretation.listsOnce_facts_addDerived ds
  case values =>
    intro p s
    rw [h.values]
    exact Interpretation.listsOnce_filterMap_facts (by grind [Fact]) ds
  case subjects =>
    intro p o
    rw [h.subjects]
    exact Interpretation.listsOnce_filterMap_facts (by grind [Fact]) ds
  case factsOf =>
    intro p
    rw [h.factsOf]
    exact Interpretation.listsOnce_filterMap_facts (by grind [Fact]) ds
  case types =>
    rw [h.types]
    exact Interpretation.listsOnce_types_addDerived ds
  case instancesOf =>
    intro c
    rw [h.instancesOf]
    exact Interpretation.listsOnce_filterMap_types (by grind) ds
  case tfae_hasFact =>
    intro s p v
    rw [h.values, h.factsOf, h.facts]
    tfae_have 1 ↔ 4 := hfact s p v
    tfae_have 2 ↔ 4 := Interpretation.mem_values
    tfae_have 3 ↔ 4 := Interpretation.mem_factsOf
    tfae_have 4 ↔ 5 := Interpretation.holds_addDerived_empty ds (.fact ⟨s, p, v⟩)
    tfae_finish
  case mem_subjects =>
    intro s p o
    rw [h.subjects, Interpretation.mem_subjects, hfact]
  case tfae_hasType =>
    intro i c
    rw [h.instancesOf, h.types, h.hasType]
    tfae_have 1 ↔ 3 := Interpretation.hasType_iff
    tfae_have 2 ↔ 3 := Interpretation.mem_instancesOf
    tfae_have 3 ↔ 4 := Interpretation.holds_addDerived_empty ds (.type i c)
    tfae_finish
  case isNew =>
    intro d
    rw [(h.add d).2, Interpretation.holds_addDerived_empty]
  case related =>
    intro p s o
    rw [h.related, h.related, Interpretation.mem_related_named, Interpretation.mem_related_inverse]
    simp [Value.isNothing]

end IndexedInterpretation

end Ontology
