import Ontology.Proofs.Refinement
import Ontology.Proofs.Renaming

/-!
# What growth keeps

An expression without complements that an individual belongs to, and a match of the body of a rule,
are kept when more becomes known, also if all entities move to new places on the way.

## Main definitions

* `ClassExpression.isComplementFree` — no complement occurs in an expression.
* `View.MapsTo` — all that the first view knows for certain, the second one knows.
* `Rule.Derives` — a rule derives something from an interpretation.

## Main results

* `View.MapsTo.member` — **members of expressions without complements remain members.**
* `Rule.Derives.rename` — **what a rule derives it goes on deriving.**
-/

namespace Ontology

/-! ### Expressions without complements -/

mutual

/-- No complement occurs in the expression, at any depth. -/
def ClassExpression.isComplementFree : ClassExpression → Bool
  | .not _ => false
  | .and parts => ClassExpression.arePartsComplementFree parts
  | .or parts => ClassExpression.arePartsComplementFree parts
  | .restriction _ _ filler => filler.isComplementFree
  | .thing | .nothing | .named _ | .oneOf _ => true
termination_by structural e => e

/-- No complement occurs in any of the expressions. -/
def ClassExpression.arePartsComplementFree : List ClassExpression → Bool
  | [] => true
  | part :: rest => part.isComplementFree && ClassExpression.arePartsComplementFree rest
termination_by structural parts => parts

/-- No complement occurs in the filler. -/
def Filler.isComplementFree : Filler → Bool
  | .expression e => e.isComplementFree
  | .individual _ | .literal _ | .datatype _ => true
termination_by structural f => f

end

mutual

theorem ClassExpression.isComplementFree_rename (ρ : Renaming) :
    ∀ e : ClassExpression, (e.rename ρ).isComplementFree = e.isComplementFree
  | .thing | .nothing | .named _ | .oneOf _ | .not _ => rfl
  | .and parts => ClassExpression.arePartsComplementFree_rename ρ parts
  | .or parts => ClassExpression.arePartsComplementFree_rename ρ parts
  | .restriction _ _ filler => Filler.isComplementFree_rename ρ filler
termination_by structural e => e

theorem ClassExpression.arePartsComplementFree_rename (ρ : Renaming) :
    ∀ parts : List ClassExpression, ClassExpression.arePartsComplementFree
      (ClassExpression.renameParts ρ parts) = ClassExpression.arePartsComplementFree parts
  | [] => rfl
  | part :: rest => by
    rw [ClassExpression.renameParts, ClassExpression.arePartsComplementFree,
      ClassExpression.arePartsComplementFree, ClassExpression.isComplementFree_rename ρ part,
      ClassExpression.arePartsComplementFree_rename ρ rest]
termination_by structural parts => parts

theorem Filler.isComplementFree_rename (ρ : Renaming) :
    ∀ f : Filler, (f.rename ρ).isComplementFree = f.isComplementFree
  | .expression e => ClassExpression.isComplementFree_rename ρ e
  | .individual _ | .literal _ | .datatype _ => rfl
termination_by structural f => f

end

/-! ### Members of expressions -/

theorem Filler.value?_rename (ρ : Renaming) (f : Filler) :
    (f.rename ρ).value? = f.value?.map (Value.rename ρ) := by
  cases f <;> rfl

namespace View

/-- All that the first view knows for certain, the second one knows with the entities at their new
places. -/
structure MapsTo (ρ : Renaming) (u v : View) : Prop where
  hasType : ∀ i c, u.hasType i c = true → v.hasType (ρ.onIndividual i) (ρ.onClass c) = true
  known : ∀ r i, ∀ x ∈ (u.successors r i).known,
    x.rename ρ ∈ (v.successors (r.rename ρ) (ρ.onIndividual i)).known

mutual

/-- **Members of an expression without complements remain members.** -/
theorem MapsTo.member {ρ : Renaming} {u v : View} (h : u.MapsTo ρ v) :
    ∀ (e : ClassExpression) (i : IndividualId), e.isComplementFree = true →
      u.member e i = .holds → v.member (e.rename ρ) (ρ.onIndividual i) = .holds
  | .thing, _, _, _ => rfl
  | .nothing, _, _, hm => by simp [View.member] at hm
  | .named c, i, _, hm => by
    rw [View.member, Truth.ofBool_eq_holds] at hm
    rw [ClassExpression.rename, View.member, Truth.ofBool_eq_holds]
    exact h.hasType i c hm
  | .and parts, i, hfree, hm => MapsTo.memberOfAll h parts i hfree hm
  | .or parts, i, hfree, hm => MapsTo.memberOfAny h parts i hfree hm
  | .not _, _, hfree, _ => by simp [ClassExpression.isComplementFree] at hfree
  | .oneOf members, i, _, hm => by
    rw [View.member, Truth.ofBool_eq_holds, List.contains_iff_mem] at hm
    rw [ClassExpression.rename, View.member, Truth.ofBool_eq_holds, List.contains_iff_mem]
    exact List.mem_map_of_mem hm
  | .restriction property quantifier filler, i, hfree, hm => by
    rw [View.member, Successors.exists_eq_holds_iff] at hm
    obtain ⟨x, hx, hpass⟩ := hm
    rw [ClassExpression.rename, View.member, Successors.exists_eq_holds_iff]
    refine ⟨x.rename ρ, h.known property i x hx, ?_⟩
    cases quantifier with
    | some => exact MapsTo.accepts h filler x hfree hpass
    | value =>
      simp only [Truth.ofBool_eq_holds, decide_eq_true_eq] at hpass ⊢
      rw [Filler.value?_rename, hpass]
      rfl
termination_by structural e => e

theorem MapsTo.memberOfAll {ρ : Renaming} {u v : View} (h : u.MapsTo ρ v) :
    ∀ (parts : List ClassExpression) (i : IndividualId),
      ClassExpression.arePartsComplementFree parts = true → u.memberOfAll parts i = .holds →
        v.memberOfAll (ClassExpression.renameParts ρ parts) (ρ.onIndividual i) = .holds
  | [], _, _, _ => rfl
  | part :: rest, i, hfree, hm => by
    rw [ClassExpression.arePartsComplementFree, Bool.and_eq_true] at hfree
    rw [View.memberOfAll, Truth.and_eq_holds] at hm
    rw [ClassExpression.renameParts, View.memberOfAll, Truth.and_eq_holds]
    exact ⟨MapsTo.member h part i hfree.1 hm.1, MapsTo.memberOfAll h rest i hfree.2 hm.2⟩
termination_by structural parts => parts

theorem MapsTo.memberOfAny {ρ : Renaming} {u v : View} (h : u.MapsTo ρ v) :
    ∀ (parts : List ClassExpression) (i : IndividualId),
      ClassExpression.arePartsComplementFree parts = true → u.memberOfAny parts i = .holds →
        v.memberOfAny (ClassExpression.renameParts ρ parts) (ρ.onIndividual i) = .holds
  | [], _, _, hm => by simp [View.memberOfAny] at hm
  | part :: rest, i, hfree, hm => by
    rw [ClassExpression.arePartsComplementFree, Bool.and_eq_true] at hfree
    rw [View.memberOfAny, Truth.or_eq_holds] at hm
    rw [ClassExpression.renameParts, View.memberOfAny, Truth.or_eq_holds]
    rcases hm with hm | hm
    · exact Or.inl (MapsTo.member h part i hfree.1 hm)
    · exact Or.inr (MapsTo.memberOfAny h rest i hfree.2 hm)
termination_by structural parts => parts

theorem MapsTo.accepts {ρ : Renaming} {u v : View} (h : u.MapsTo ρ v) :
    ∀ (f : Filler) (x : Value), f.isComplementFree = true → u.accepts f x = .holds →
      v.accepts (f.rename ρ) (x.rename ρ) = .holds
  | .expression e, .individual i, hfree, hm => MapsTo.member h e i hfree hm
  | .expression e, .expression _, _, hm => by
    simp only [View.accepts, Truth.ofBool_eq_holds, decide_eq_true_eq] at hm
    rw [hm]
    rfl
  | .expression e, .literal _, _, hm => by
    simp only [View.accepts, Truth.ofBool_eq_holds, decide_eq_true_eq] at hm
    rw [hm]
    rfl
  | .individual j, x, _, hm => by
    simp only [View.accepts, Truth.ofBool_eq_holds, decide_eq_true_eq] at hm
    rw [hm]
    simp [Filler.rename, View.accepts, Value.rename]
  | .literal l, x, _, hm => by
    simp only [View.accepts, Truth.ofBool_eq_holds, decide_eq_true_eq] at hm
    rw [hm]
    simp [Filler.rename, View.accepts, Value.rename]
  | .datatype d, x, _, hm => by
    cases x with
    | literal l => exact hm
    | individual i => simp [View.accepts, Value.literal?] at hm
    | expression e => simp [View.accepts, Value.literal?] at hm
termination_by structural f => f

end

end View

namespace Renaming

variable {ρ : Renaming} {w w' : World} {I J : Interpretation}

theorem mem_related_rename (hIJ : I.rename ρ ≤ J) {r : PropertyExpression} {i : IndividualId}
    {x : Value} (hx : x ∈ I.related r i) :
    x.rename ρ ∈ J.related (r.rename ρ) (ρ.onIndividual i) := by
  have hfacts := (Interpretation.rename_le_iff.mp hIJ).1
  cases r with
  | named p =>
    rw [Interpretation.related, List.mem_filter, Interpretation.mem_values] at hx
    rw [PropertyExpression.rename, Interpretation.related, List.mem_filter,
      Interpretation.mem_values, Value.isNothing_rename]
    exact ⟨hfacts _ hx.1, hx.2⟩
  | inverse p =>
    rw [Interpretation.related, List.mem_map] at hx
    obtain ⟨s, hs, rfl⟩ := hx
    rw [Interpretation.mem_subjects] at hs
    rw [PropertyExpression.rename, Interpretation.related, List.mem_map]
    exact ⟨_, Interpretation.mem_subjects.mpr (hfacts _ hs), rfl⟩

/-- The view of an interpretation knows whatever smaller ones know. -/
theorem Reorders.assertedView (h : ρ.Reorders w w') (hold : ρ.KeepsOlder w)
    (hIJ : I.rename ρ ≤ J) : (w.assertedView I).MapsTo ρ (w'.assertedView J) where
  hasType := fun i c hc =>
    Interpretation.hasType_iff.mpr
      ((Interpretation.rename_le_iff.mp hIJ).2 i c (Interpretation.hasType_iff.mp hc))
  known := fun r i x hx => by
    have hx' := mem_related_rename hIJ hx
    rw [← h.relation hold] at hx'
    exact hx'

end Renaming

/-! ### Rules -/

namespace Argument

theorem value?_rename (ρ : Renaming) (b : Bindings) (a : Argument) :
    (a.rename ρ).value? (b.rename ρ) = (a.value? b).map (Value.rename ρ) := by
  cases a with
  | «variable» name => exact b.lookup_rename ρ name
  | individual i => rfl
  | literal l => rfl

/-- An argument that has the value stays as it is, a variable that has none is bound to it. -/
theorem unify_eq_some_iff {b b' : Bindings} {a : Argument} {v : Value} :
    a.unify b v = some b' ↔ (a.value? b = some v ∧ b' = b) ∨
      ∃ name, a = .variable name ∧ b.lookup name = none ∧ b' = (name, v) :: b := by
  unfold unify
  cases hvalue : a.value? b with
  | some u =>
    have hbound (name : String) : a = .variable name → b.lookup name ≠ none := by
      rintro rfl hnone
      rw [value?, hnone] at hvalue
      cases hvalue
    dsimp only
    by_cases huv : u = v
    · rw [if_pos huv, huv]
      constructor
      · intro h
        exact .inl ⟨rfl, (Option.some.inj h).symm⟩
      · rintro (⟨-, rfl⟩ | ⟨name, ha, hnone, -⟩)
        · rfl
        · exact absurd hnone (hbound name ha)
    · rw [if_neg huv]
      constructor
      · intro h
        cases h
      · rintro (⟨hu, -⟩ | ⟨name, ha, hnone, -⟩)
        · exact absurd (Option.some.inj hu) huv
        · exact absurd hnone (hbound name ha)
  | none =>
    cases a with
    | «variable» name =>
      dsimp only
      constructor
      · intro h
        exact .inr ⟨name, rfl, hvalue, (Option.some.inj h).symm⟩
      · rintro (⟨hv, -⟩ | ⟨name', hname, -, rfl⟩)
        · cases hv
        · rw [Argument.variable.inj hname]
    | individual i => cases hvalue
    | literal l => cases hvalue

theorem unify_rename (ρ : Renaming) {b b' : Bindings} {a : Argument} {v : Value}
    (h : a.unify b v = some b') :
    (a.rename ρ).unify (b.rename ρ) (v.rename ρ) = some (b'.rename ρ) := by
  rw [unify_eq_some_iff, value?_rename]
  rcases unify_eq_some_iff.mp h with ⟨hv, rfl⟩ | ⟨name, rfl, hnone, rfl⟩
  · exact .inl ⟨by rw [hv, Option.map_some], rfl⟩
  · exact .inr ⟨name, rfl, by rw [Bindings.lookup_rename, hnone, Option.map_none], rfl⟩

end Argument

section Matching

variable {ρ : Renaming} {I J : Interpretation}

theorem Atom.type_extensions_rename (hIJ : I.rename ρ ≤ J) {c : ClassId} {argument : Argument}
    {b b' : Bindings} (h : b' ∈ (Atom.type c argument).extensions I b) :
    b'.rename ρ ∈ ((Atom.type c argument).rename ρ).extensions J (b.rename ρ) := by
  have htypes := (Interpretation.rename_le_iff.mp hIJ).2
  rw [extensions] at h
  rw [Atom.rename, extensions, Argument.value?_rename]
  cases hv : argument.value? b with
  | none =>
    rw [hv] at h
    obtain ⟨i, hi, hb⟩ := List.mem_filterMap.mp h
    exact List.mem_filterMap.mpr ⟨_, Interpretation.mem_instancesOf.mpr
      (htypes i c (Interpretation.mem_instancesOf.mp hi)), Argument.unify_rename ρ hb⟩
  | some u =>
    rw [hv] at h
    cases u with
    | individual i =>
      dsimp only at h
      split at h
      · next hc =>
        have hc' : J.hasType (ρ.onIndividual i) (ρ.onClass c) = true :=
          Interpretation.hasType_iff.mpr (htypes i c (Interpretation.hasType_iff.mp hc))
        rw [List.mem_singleton.mp h]
        simp [Value.rename, hc']
      · simp at h
    | expression e => simp at h
    | literal l => simp at h

theorem Atom.fact_extensions_rename (hIJ : I.rename ρ ≤ J) {p : PropertyId}
    {subject object : Argument} {b b' : Bindings}
    (h : b' ∈ (Atom.fact p subject object).extensions I b) :
    b'.rename ρ ∈ ((Atom.fact p subject object).rename ρ).extensions J (b.rename ρ) := by
  have hfacts := (Interpretation.rename_le_iff.mp hIJ).1
  rw [extensions] at h
  rw [Atom.rename, extensions]
  obtain ⟨⟨s, v⟩, hf, hb⟩ := List.mem_filterMap.mp h
  dsimp only at hb
  split at hb
  · simp at hb
  · next hv =>
    obtain ⟨b₁, hs, ho⟩ := Option.bind_eq_some_iff.mp hb
    refine List.mem_filterMap.mpr ⟨(ρ.onIndividual s, v.rename ρ),
      Interpretation.mem_factsOf.mpr (hfacts _ (Interpretation.mem_factsOf.mp hf)), ?_⟩
    dsimp only
    rw [Value.isNothing_rename, if_neg hv]
    exact Option.bind_eq_some_iff.mpr ⟨_, Argument.unify_rename ρ hs, Argument.unify_rename ρ ho⟩

theorem Atom.same_extensions_rename {x y : Argument} {b b' : Bindings}
    (h : b' ∈ (Atom.same x y).extensions I b) :
    b'.rename ρ ∈ ((Atom.same x y).rename ρ).extensions J (b.rename ρ) := by
  rw [extensions] at h
  rw [Atom.rename, extensions, Argument.value?_rename, Argument.value?_rename]
  cases hx : x.value? b with
  | some u =>
    cases hy : y.value? b with
    | some v =>
      rw [hx, hy] at h
      dsimp only at h
      split at h
      · next huv =>
        rw [List.mem_singleton.mp h, huv]
        simp
      · simp at h
    | none =>
      rw [hx, hy] at h
      exact Option.mem_toList.mpr (Argument.unify_rename ρ (Option.mem_toList.mp h))
  | none =>
    cases hy : y.value? b with
    | some v =>
      rw [hx, hy] at h
      exact Option.mem_toList.mpr (Argument.unify_rename ρ (Option.mem_toList.mp h))
    | none =>
      rw [hx, hy] at h
      simp at h

theorem Atom.different_extensions_rename {x y : Argument} {b b' : Bindings}
    (h : b' ∈ (Atom.different x y).extensions I b) :
    b'.rename ρ ∈ ((Atom.different x y).rename ρ).extensions J (b.rename ρ) := by
  rw [extensions] at h
  rw [Atom.rename, extensions, Argument.value?_rename, Argument.value?_rename]
  cases hx : x.value? b with
  | none =>
    rw [hx] at h
    simp at h
  | some u =>
    cases hy : y.value? b with
    | none =>
      rw [hx, hy] at h
      simp at h
    | some v =>
      rw [hx, hy] at h
      dsimp only at h
      split at h
      · simp at h
      · next huv =>
        -- values at their new places differ if they did before
        have huv' : u.rename ρ ≠ v.rename ρ := fun heq => huv (Value.rename_injective ρ heq)
        rw [List.mem_singleton.mp h]
        simp [huv']

/-- A match of an atom remains a match. -/
theorem Atom.extensions_rename (hIJ : I.rename ρ ≤ J) {a : Atom} {b b' : Bindings}
    (h : b' ∈ a.extensions I b) :
    b'.rename ρ ∈ (a.rename ρ).extensions J (b.rename ρ) := by
  cases a with
  | type c argument => exact Atom.type_extensions_rename hIJ h
  | fact p subject object => exact Atom.fact_extensions_rename hIJ h
  | same x y => exact Atom.same_extensions_rename h
  | different x y => exact Atom.different_extensions_rename h

theorem mem_matchAtoms_rename (hIJ : I.rename ρ ≤ J) {atoms : List Atom} {b b' : Bindings}
    (h : b' ∈ matchAtoms I atoms b) :
    b'.rename ρ ∈ matchAtoms J (atoms.map (Atom.rename ρ)) (b.rename ρ) := by
  induction atoms generalizing b with
  | nil =>
    rw [matchAtoms, List.mem_singleton] at h
    rw [h]
    exact List.mem_singleton.mpr rfl
  | cons a atoms ih =>
    rw [matchAtoms, List.mem_flatMap] at h
    obtain ⟨b₁, hb₁, hb'⟩ := h
    rw [List.map_cons, matchAtoms, List.mem_flatMap]
    exact ⟨b₁.rename ρ, Atom.extensions_rename hIJ hb₁, ih hb'⟩

theorem Atom.instantiate_rename (ρ : Renaming) {rule : String} {b : Bindings} {a : Atom}
    {d : Derived} (h : a.instantiate rule b = .ok (some d)) :
    (a.rename ρ).instantiate rule (b.rename ρ) = .ok (some (d.rename ρ)) := by
  cases a with
  | type c argument =>
    rw [instantiate] at h
    rw [Atom.rename, instantiate, Argument.value?_rename]
    split at h
    · next i hv =>
      rw [hv, ← Option.some.inj (Except.ok.inj h)]
      rfl
    · simp at h
  | fact p subject object =>
    rw [instantiate] at h
    rw [Atom.rename, instantiate, Argument.value?_rename, Argument.value?_rename]
    split at h
    · next s v hs hv =>
      rw [hs, hv, ← Option.some.inj (Except.ok.inj h)]
      rfl
    · simp at h
  | same x y =>
    rw [instantiate] at h
    split at h
    · split at h <;> simp at h
    · simp at h
  | different x y =>
    rw [instantiate] at h
    split at h
    · split at h <;> simp at h
    · simp at h

end Matching

namespace Rule

/-- A rule derives something: an atom of its head adds it for a match of its body. -/
def Derives (r : Rule) (I : Interpretation) (d : Derived) : Prop :=
  ∃ b ∈ r.matches I, ∃ a ∈ r.head, a.instantiate r.name b = .ok (some d)

/-- **What a rule derives it goes on deriving.** -/
theorem Derives.rename {ρ : Renaming} {I J : Interpretation} (hIJ : I.rename ρ ≤ J) {r : Rule}
    {d : Derived} (h : r.Derives I d) : (r.rename ρ).Derives J (d.rename ρ) := by
  obtain ⟨b, hb, a, ha, hd⟩ := h
  exact ⟨b.rename ρ, mem_matchAtoms_rename hIJ hb, a.rename ρ, List.mem_map_of_mem ha,
    Atom.instantiate_rename ρ hd⟩

/-- A match of a rule remains a match. -/
theorem mem_matches_mono {I J : Interpretation} (hIJ : I ≤ J) {r : Rule} {b : Bindings}
    (h : b ∈ r.matches I) : b ∈ r.matches J := by
  have hle : I.rename .refl ≤ J := by rwa [I.rename_refl]
  have hmem : b.rename .refl ∈ (r.rename .refl).matches J := mem_matchAtoms_rename hle h
  rwa [r.rename_refl, b.rename_refl] at hmem

theorem Derives.mono {I J : Interpretation} (hIJ : I ≤ J) {r : Rule} {d : Derived}
    (h : r.Derives I d) : r.Derives J d := by
  obtain ⟨b, hb, a, ha, hd⟩ := h
  exact ⟨b, mem_matches_mono hIJ hb, a, ha, hd⟩

end Rule

end Ontology
