import Mathlib.Order.Defs.PartialOrder
import Ontology.Proofs.Lists
import Ontology.Reasoning.Rules

/-!
# Growth of interpretations

An interpretation is below another one if all that is known in it is known in the other one.
Reasoning only adds to the end of what is known.

## Main definitions

* The order of interpretations: `I ≤ J` if the facts and types of `I` are among those of `J`.
* `Interpretation.Extends` — entries were added behind the others.
* `Interpretation.Holds` — what a rule derives is known.

## Main results

* `Interpretation.mem_addFacts`, `Interpretation.mem_addTypes` — what is known after growth.
* `Interpretation.Extends.eq_of_size` — **growth that adds no entry changes nothing.**
-/

namespace Ontology

namespace Interpretation

/-! ### The order of interpretations -/

/-- What is known in the first interpretation is known in the second one. -/
instance : Preorder Interpretation where
  le I J := I.facts ⊆ J.facts ∧ I.types ⊆ J.types
  le_refl _ := ⟨fun _ h => h, fun _ h => h⟩
  le_trans _ _ _ h h' := ⟨fun _ hf => h'.1 (h.1 hf), fun _ ht => h'.2 (h.2 ht)⟩

theorem le_def {I J : Interpretation} : I ≤ J ↔ I.facts ⊆ J.facts ∧ I.types ⊆ J.types := Iff.rfl

instance (I J : Interpretation) : Decidable (I ≤ J) :=
  inferInstanceAs (Decidable ((∀ f ∈ I.facts, f ∈ J.facts) ∧ ∀ t ∈ I.types, t ∈ J.types))

/-- What a rule derives is known. -/
def Holds (I : Interpretation) : Derived → Prop
  | .type i c => (i, c) ∈ I.types
  | .fact f => f ∈ I.facts

theorem Holds.mono {I J : Interpretation} {d : Derived} (h : I.Holds d) (hIJ : I ≤ J) :
    J.Holds d := by
  cases d with
  | type i c => exact hIJ.2 h
  | fact f => exact hIJ.1 h

/-! ### Contents -/

@[simp] theorem hasType_iff {I : Interpretation} {i : IndividualId} {c : ClassId} :
    I.hasType i c = true ↔ (i, c) ∈ I.types := by
  simp [hasType]

@[simp] theorem mem_values {I : Interpretation} {p : PropertyId} {s : IndividualId} {v : Value} :
    v ∈ I.values p s ↔ ⟨s, p, v⟩ ∈ I.facts := by
  simp only [values, List.mem_filterMap]
  constructor
  · rintro ⟨f, hf, hv⟩
    split at hv
    · next h =>
      rw [← h.1, ← h.2, ← Option.some.inj hv]
      exact hf
    · simp at hv
  · intro h
    exact ⟨_, h, by simp⟩

@[simp] theorem mem_subjects {I : Interpretation} {p : PropertyId} {s o : IndividualId} :
    s ∈ I.subjects p o ↔ ⟨s, p, .individual o⟩ ∈ I.facts := by
  simp only [subjects, List.mem_filterMap]
  constructor
  · rintro ⟨f, hf, hs⟩
    split at hs
    · next h =>
      rw [← h.1, ← h.2, ← Option.some.inj hs]
      exact hf
    · simp at hs
  · intro h
    exact ⟨_, h, by simp⟩

@[simp] theorem mem_instancesOf {I : Interpretation} {c : ClassId} {i : IndividualId} :
    i ∈ I.instancesOf c ↔ (i, c) ∈ I.types := by
  simp only [instancesOf, List.mem_filterMap]
  constructor
  · rintro ⟨⟨j, d⟩, ht, hi⟩
    split at hi
    · next h =>
      rw [← h, ← Option.some.inj hi]
      exact ht
    · simp at hi
  · intro h
    exact ⟨_, h, by simp⟩

@[simp] theorem mem_factsOf {I : Interpretation} {p : PropertyId} {s : IndividualId}
    {v : Value} : (s, v) ∈ I.factsOf p ↔ ⟨s, p, v⟩ ∈ I.facts := by
  simp only [factsOf, List.mem_filterMap]
  constructor
  · rintro ⟨f, hf, hs⟩
    split at hs
    · next h =>
      obtain ⟨rfl, rfl⟩ := by simpa using hs
      rw [← h]
      exact hf
    · simp at hs
  · intro h
    exact ⟨_, h, by simp⟩

theorem mem_related_named {I : Interpretation} {p : PropertyId} {i : IndividualId} {x : Value} :
    x ∈ I.related (.named p) i ↔ ⟨i, p, x⟩ ∈ I.facts ∧ x.isNothing = false := by
  rw [related, List.mem_filter, mem_values, Bool.not_eq_true']

theorem mem_related_inverse {I : Interpretation} {p : PropertyId} {i : IndividualId} {x : Value} :
    x ∈ I.related (.inverse p) i ↔
      ∃ s, ⟨s, p, .individual i⟩ ∈ I.facts ∧ x = .individual s := by
  simp only [related, List.mem_map, mem_subjects, eq_comm]

theorem mem_related_mono {I J : Interpretation} (hIJ : I ≤ J) {r : PropertyExpression}
    {i : IndividualId} {x : Value} (hx : x ∈ I.related r i) : x ∈ J.related r i := by
  cases r with
  | named p =>
    rw [mem_related_named] at hx ⊢
    exact ⟨hIJ.1 hx.1, hx.2⟩
  | inverse p =>
    rw [mem_related_inverse] at hx ⊢
    obtain ⟨s, hs, rfl⟩ := hx
    exact ⟨s, hIJ.1 hs, rfl⟩

/-! ### What is known after growth -/

@[simp] theorem mem_addFact {I : Interpretation} {f g : Fact} :
    g ∈ (I.addFact f).1.facts ↔ g ∈ I.facts ∨ g = f := by
  rw [addFact]
  split
  · next h =>
    constructor
    · exact Or.inl
    · rintro (hg | rfl)
      · exact hg
      · exact h
  · simp

@[simp] theorem types_addFact {I : Interpretation} {f : Fact} :
    (I.addFact f).1.types = I.types := by
  rw [addFact]
  split <;> rfl

@[simp] theorem mem_addType {I : Interpretation} {i : IndividualId} {c : ClassId}
    {t : IndividualId × ClassId} : t ∈ (I.addType i c).1.types ↔ t ∈ I.types ∨ t = (i, c) := by
  rw [addType]
  split
  · next h =>
    constructor
    · exact Or.inl
    · rintro (ht | rfl)
      · exact ht
      · exact h
  · simp

@[simp] theorem facts_addType {I : Interpretation} {i : IndividualId} {c : ClassId} :
    (I.addType i c).1.facts = I.facts := by
  rw [addType]
  split <;> rfl

@[simp] theorem mem_addFacts {I : Interpretation} {fs : List Fact} {g : Fact} :
    g ∈ (I.addFacts fs).facts ↔ g ∈ I.facts ∨ g ∈ fs := by
  rw [addFacts]
  induction fs generalizing I with
  | nil => simp
  | cons f fs ih => rw [List.foldl_cons, ih, mem_addFact, List.mem_cons, or_assoc]

@[simp] theorem types_addFacts {I : Interpretation} {fs : List Fact} :
    (I.addFacts fs).types = I.types := by
  rw [addFacts]
  induction fs generalizing I with
  | nil => rfl
  | cons f fs ih => rw [List.foldl_cons, ih, types_addFact]

@[simp] theorem mem_addTypes {I : Interpretation} {ts : List (IndividualId × ClassId)}
    {t : IndividualId × ClassId} : t ∈ (I.addTypes ts).types ↔ t ∈ I.types ∨ t ∈ ts := by
  rw [addTypes]
  induction ts generalizing I with
  | nil => simp
  | cons u ts ih => rw [List.foldl_cons, ih, mem_addType, List.mem_cons, or_assoc]

@[simp] theorem facts_addTypes {I : Interpretation} {ts : List (IndividualId × ClassId)} :
    (I.addTypes ts).facts = I.facts := by
  rw [addTypes]
  induction ts generalizing I with
  | nil => rfl
  | cons u ts ih => rw [List.foldl_cons, ih, facts_addType]

/-- What rules derive is known afterwards, and nothing else besides what was known. -/
theorem holds_addDerived {I : Interpretation} {ds : List Derived} {d : Derived} :
    (I.addDerived ds).Holds d ↔ I.Holds d ∨ d ∈ ds := by
  rw [addDerived]
  induction ds generalizing I with
  | nil => simp
  | cons e ds ih =>
    rw [List.foldl_cons, ih, List.mem_cons, ← or_assoc]
    refine or_congr ?_ Iff.rfl
    cases e with
    | type i c => cases d <;> simp [Holds]
    | fact f => cases d <;> simp [Holds]

theorem addFacts_le {I J : Interpretation} (hIJ : I ≤ J) {fs : List Fact} (h : fs ⊆ J.facts) :
    I.addFacts fs ≤ J := by
  rw [le_def, types_addFacts]
  refine ⟨fun f hf => ?_, hIJ.2⟩
  rcases mem_addFacts.mp hf with hf | hf
  · exact hIJ.1 hf
  · exact h hf

theorem addTypes_le {I J : Interpretation} (hIJ : I ≤ J) {ts : List (IndividualId × ClassId)}
    (h : ts ⊆ J.types) : I.addTypes ts ≤ J := by
  rw [le_def, facts_addTypes]
  refine ⟨hIJ.1, fun t ht => ?_⟩
  rcases mem_addTypes.mp ht with ht | ht
  · exact hIJ.2 ht
  · exact h ht

theorem addDerived_le {I J : Interpretation} (hIJ : I ≤ J) {ds : List Derived}
    (h : ∀ d ∈ ds, J.Holds d) : I.addDerived ds ≤ J := by
  have hholds : ∀ d, (I.addDerived ds).Holds d → J.Holds d := by
    intro d hd
    rcases holds_addDerived.mp hd with hd | hd
    · exact hd.mono hIJ
    · exact h d hd
  exact ⟨fun f hf => hholds (.fact f) hf, fun t ht => hholds (.type t.1 t.2) ht⟩

/-! ### Growth by what is known -/

theorem addFact_eq_self {I : Interpretation} {f : Fact} (h : f ∈ I.facts) :
    (I.addFact f).1 = I := by
  rw [addFact, if_pos h]

theorem addFacts_eq_self {I : Interpretation} {fs : List Fact} (h : fs ⊆ I.facts) :
    I.addFacts fs = I := by
  rw [addFacts]
  induction fs with
  | nil => rfl
  | cons f fs ih =>
    rw [List.cons_subset] at h
    rw [List.foldl_cons, addFact_eq_self h.1]
    exact ih h.2

theorem addType_eq_self {I : Interpretation} {i : IndividualId} {c : ClassId}
    (h : (i, c) ∈ I.types) : (I.addType i c).1 = I := by
  rw [addType, if_pos h]

theorem addTypes_eq_self {I : Interpretation} {ts : List (IndividualId × ClassId)}
    (h : ts ⊆ I.types) : I.addTypes ts = I := by
  rw [addTypes]
  induction ts with
  | nil => rfl
  | cons t ts ih =>
    rw [List.cons_subset] at h
    rw [List.foldl_cons, addType_eq_self h.1]
    exact ih h.2

theorem addDerived_eq_self {I : Interpretation} {ds : List Derived} (h : ∀ d ∈ ds, I.Holds d) :
    I.addDerived ds = I := by
  rw [addDerived]
  induction ds with
  | nil => rfl
  | cons d ds ih =>
    have hd := h d List.mem_cons_self
    have hrest := ih fun e he => h e (List.mem_cons_of_mem _ he)
    rw [List.foldl_cons]
    cases d with
    | type i c =>
      dsimp only
      rw [addType_eq_self hd]
      exact hrest
    | fact f =>
      dsimp only
      rw [addFact_eq_self hd]
      exact hrest

/-! ### Growth at the end -/

/-- Entries were added behind the others. -/
def Extends (I J : Interpretation) : Prop := I.facts <+: J.facts ∧ I.types <+: J.types

theorem Extends.refl (I : Interpretation) : I.Extends I :=
  ⟨List.prefix_refl _, List.prefix_refl _⟩

theorem Extends.trans {I J K : Interpretation} (h : I.Extends J) (h' : J.Extends K) :
    I.Extends K :=
  ⟨h.1.trans h'.1, h.2.trans h'.2⟩

theorem Extends.le {I J : Interpretation} (h : I.Extends J) : I ≤ J := ⟨h.1.subset, h.2.subset⟩

/-- **Growth that adds no entry changes nothing.** -/
theorem Extends.eq_of_size {I J : Interpretation} (h : I.Extends J) (hsize : J.size = I.size) :
    J = I := by
  have hf := h.1.length_le
  have ht := h.2.length_le
  rw [size, size] at hsize
  have hfacts : J.facts = I.facts := (h.1.eq_of_length (by omega)).symm
  have htypes : J.types = I.types := (h.2.eq_of_length (by omega)).symm
  cases I
  cases J
  simp_all

theorem Extends.antisymm {I J : Interpretation} (h : I.Extends J) (h' : J.Extends I) : J = I := by
  refine h.eq_of_size ?_
  have := h.1.length_le
  have := h'.1.length_le
  have := h.2.length_le
  have := h'.2.length_le
  rw [size, size]
  omega

theorem extends_addFact (I : Interpretation) (f : Fact) : I.Extends (I.addFact f).1 := by
  rw [addFact]
  split
  · exact .refl I
  · exact ⟨List.prefix_append _ _, List.prefix_refl _⟩

theorem extends_addType (I : Interpretation) (i : IndividualId) (c : ClassId) :
    I.Extends (I.addType i c).1 := by
  rw [addType]
  split
  · exact .refl I
  · exact ⟨List.prefix_refl _, List.prefix_append _ _⟩

theorem extends_foldl {α : Type} {grow : Interpretation → α → Interpretation}
    (hgrow : ∀ (I : Interpretation) a, I.Extends (grow I a)) (as : List α) (I : Interpretation) :
    I.Extends (as.foldl grow I) := by
  induction as generalizing I with
  | nil => exact .refl I
  | cons a as ih =>
    rw [List.foldl_cons]
    exact (hgrow I a).trans (ih _)

theorem extends_addFacts (I : Interpretation) (fs : List Fact) : I.Extends (I.addFacts fs) :=
  extends_foldl extends_addFact fs I

theorem extends_addTypes (I : Interpretation) (ts : List (IndividualId × ClassId)) :
    I.Extends (I.addTypes ts) := by
  rw [addTypes]
  refine extends_foldl ?_ ts I
  exact fun I t => extends_addType I t.1 t.2

theorem extends_addDerived (I : Interpretation) (ds : List Derived) :
    I.Extends (I.addDerived ds) := by
  refine extends_foldl (fun I d => ?_) ds I
  cases d with
  | type i c => exact extends_addType I i c
  | fact f => exact extends_addFact I f

end Interpretation

end Ontology
