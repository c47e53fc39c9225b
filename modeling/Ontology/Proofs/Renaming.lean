import Mathlib.Logic.Equiv.Defs
import Ontology.Proofs.Growth
import Ontology.Reasoning.Saturation

/-!
# Entities stored at other places

Classes, properties and individuals are named by their place.  Storing them in another order
renames them everywhere.

## Main definitions

* `Renaming` — new places for all entities; `rename` applies them to expressions, facts, rules and
  interpretations.
* `Renaming.Reorders` — an ontology holds the entities of another one at their new places.
* `Renaming.KeepsOlder` — of two properties declared to be each other's inverse the older one
  stays the older one.

## Main results

* `Renaming.Reorders.baseRelation` — properties stand for the same relations afterwards.
* `Renaming.Reorders.symm` — an ontology can be put back in its former order.
-/

namespace Ontology

/-- New places for the entities of an ontology. -/
structure Renaming where
  onClass : Equiv.Perm ClassId
  onProperty : Equiv.Perm PropertyId
  onIndividual : Equiv.Perm IndividualId

namespace Renaming

/-- All entities stay where they are. -/
def refl : Renaming := ⟨Equiv.refl _, Equiv.refl _, Equiv.refl _⟩

/-- All entities go back. -/
def symm (ρ : Renaming) : Renaming := ⟨ρ.onClass.symm, ρ.onProperty.symm, ρ.onIndividual.symm⟩

@[simp] theorem symm_symm (ρ : Renaming) : ρ.symm.symm = ρ := rfl

end Renaming

/-! ### Expressions -/

/-- A property expression with its property at its new place. -/
def PropertyExpression.rename (ρ : Renaming) : PropertyExpression → PropertyExpression
  | .named p => .named (ρ.onProperty p)
  | .inverse p => .inverse (ρ.onProperty p)

mutual

/-- A class expression with its entities at their new places. -/
def ClassExpression.rename (ρ : Renaming) : ClassExpression → ClassExpression
  | .thing => .thing
  | .nothing => .nothing
  | .named c => .named (ρ.onClass c)
  | .and parts => .and (ClassExpression.renameParts ρ parts)
  | .or parts => .or (ClassExpression.renameParts ρ parts)
  | .not inner => .not (inner.rename ρ)
  | .oneOf members => .oneOf (members.map ρ.onIndividual)
  | .restriction property quantifier filler =>
    .restriction (property.rename ρ) quantifier (filler.rename ρ)
termination_by structural e => e

/-- Class expressions with their entities at their new places. -/
def ClassExpression.renameParts (ρ : Renaming) : List ClassExpression → List ClassExpression
  | [] => []
  | part :: rest => part.rename ρ :: ClassExpression.renameParts ρ rest
termination_by structural parts => parts

/-- A filler with its entities at their new places. -/
def Filler.rename (ρ : Renaming) : Filler → Filler
  | .expression e => .expression (e.rename ρ)
  | .individual i => .individual (ρ.onIndividual i)
  | .literal l => .literal l
  | .datatype d => .datatype d
termination_by structural f => f

end

/-- A value with its entities at their new places. -/
def Value.rename (ρ : Renaming) : Value → Value
  | .individual i => .individual (ρ.onIndividual i)
  | .expression e => .expression (e.rename ρ)
  | .literal l => .literal l

/-- A fact with its entities at their new places. -/
def Fact.rename (ρ : Renaming) (f : Fact) : Fact :=
  ⟨ρ.onIndividual f.subject, ρ.onProperty f.property, f.value.rename ρ⟩

theorem PropertyExpression.rename_refl (r : PropertyExpression) : r.rename .refl = r := by
  cases r <;> rfl

theorem PropertyExpression.rename_symm_rename (ρ : Renaming) (r : PropertyExpression) :
    (r.rename ρ).rename ρ.symm = r := by
  cases r <;> simp [PropertyExpression.rename, Renaming.symm]

theorem PropertyExpression.reversed_rename (ρ : Renaming) (r : PropertyExpression) :
    (r.rename ρ).reversed = r.reversed.rename ρ := by
  cases r <;> rfl

mutual

theorem ClassExpression.rename_refl : ∀ e : ClassExpression, e.rename .refl = e
  | .thing => rfl
  | .nothing => rfl
  | .named _ => rfl
  | .and parts => congrArg _ (ClassExpression.renameParts_refl parts)
  | .or parts => congrArg _ (ClassExpression.renameParts_refl parts)
  | .not inner => congrArg _ (ClassExpression.rename_refl inner)
  | .oneOf members => congrArg _ (List.map_id members)
  | .restriction property quantifier filler => by
    rw [ClassExpression.rename, property.rename_refl, Filler.rename_refl filler]
termination_by structural e => e

theorem ClassExpression.renameParts_refl :
    ∀ parts : List ClassExpression, ClassExpression.renameParts .refl parts = parts
  | [] => rfl
  | part :: rest => by
    rw [ClassExpression.renameParts, ClassExpression.rename_refl part,
      ClassExpression.renameParts_refl rest]
termination_by structural parts => parts

theorem Filler.rename_refl : ∀ f : Filler, f.rename .refl = f
  | .expression e => congrArg _ (ClassExpression.rename_refl e)
  | .individual _ => rfl
  | .literal _ => rfl
  | .datatype _ => rfl
termination_by structural f => f

end

mutual

theorem ClassExpression.rename_symm_rename (ρ : Renaming) :
    ∀ e : ClassExpression, (e.rename ρ).rename ρ.symm = e
  | .thing => rfl
  | .nothing => rfl
  | .named c => congrArg _ (ρ.onClass.symm_apply_apply c)
  | .and parts => congrArg _ (ClassExpression.renameParts_symm_renameParts ρ parts)
  | .or parts => congrArg _ (ClassExpression.renameParts_symm_renameParts ρ parts)
  | .not inner => congrArg _ (ClassExpression.rename_symm_rename ρ inner)
  | .oneOf members => by simp [ClassExpression.rename, Renaming.symm, Function.comp_def]
  | .restriction property quantifier filler => by
    rw [ClassExpression.rename, ClassExpression.rename, property.rename_symm_rename,
      Filler.rename_symm_rename ρ filler]
termination_by structural e => e

theorem ClassExpression.renameParts_symm_renameParts (ρ : Renaming) :
    ∀ parts : List ClassExpression,
      ClassExpression.renameParts ρ.symm (ClassExpression.renameParts ρ parts) = parts
  | [] => rfl
  | part :: rest => by
    rw [ClassExpression.renameParts, ClassExpression.renameParts,
      ClassExpression.rename_symm_rename ρ part,
      ClassExpression.renameParts_symm_renameParts ρ rest]
termination_by structural parts => parts

theorem Filler.rename_symm_rename (ρ : Renaming) : ∀ f : Filler, (f.rename ρ).rename ρ.symm = f
  | .expression e => congrArg _ (ClassExpression.rename_symm_rename ρ e)
  | .individual i => congrArg _ (ρ.onIndividual.symm_apply_apply i)
  | .literal _ => rfl
  | .datatype _ => rfl
termination_by structural f => f

end

/-! ### Values and facts -/

namespace Value

theorem rename_refl (v : Value) : v.rename .refl = v := by
  cases v with
  | individual i => rfl
  | expression e => rw [rename, e.rename_refl]
  | literal l => rfl

theorem rename_symm_rename (ρ : Renaming) (v : Value) : (v.rename ρ).rename ρ.symm = v := by
  cases v with
  | individual i => simp [rename, Renaming.symm]
  | expression e => rw [rename, rename, e.rename_symm_rename]
  | literal l => rfl

theorem rename_injective (ρ : Renaming) {u v : Value} (h : u.rename ρ = v.rename ρ) : u = v := by
  rw [← rename_symm_rename ρ u, h, rename_symm_rename]

theorem isNothing_rename (ρ : Renaming) (v : Value) : (v.rename ρ).isNothing = v.isNothing := by
  cases v with
  | individual i => rfl
  | literal l => rfl
  | expression e => cases e <;> rfl

end Value

theorem Fact.rename_refl (f : Fact) : f.rename .refl = f := by
  rw [Fact.rename, Value.rename_refl]
  rfl

theorem Fact.rename_symm_rename (ρ : Renaming) (f : Fact) : (f.rename ρ).rename ρ.symm = f := by
  rw [Fact.rename, Fact.rename, Value.rename_symm_rename]
  simp [Renaming.symm]

/-! ### Rules -/

/-- An argument with its individual at its new place. -/
def Argument.rename (ρ : Renaming) : Argument → Argument
  | .variable name => .variable name
  | .individual i => .individual (ρ.onIndividual i)
  | .literal l => .literal l

/-- An atom with its entities at their new places. -/
def Atom.rename (ρ : Renaming) : Atom → Atom
  | .type c argument => .type (ρ.onClass c) (argument.rename ρ)
  | .fact p subject object => .fact (ρ.onProperty p) (subject.rename ρ) (object.rename ρ)
  | .same a b => .same (a.rename ρ) (b.rename ρ)
  | .different a b => .different (a.rename ρ) (b.rename ρ)

/-- A rule with its entities at their new places. -/
def Rule.rename (ρ : Renaming) (r : Rule) : Rule :=
  { r with body := r.body.map (Atom.rename ρ), head := r.head.map (Atom.rename ρ) }

/-- Bindings to values with their entities at their new places. -/
def Bindings.rename (ρ : Renaming) (b : Bindings) : Bindings :=
  b.map fun (name, v) => (name, v.rename ρ)

/-- What a rule derives, with its entities at their new places. -/
def Derived.rename (ρ : Renaming) : Derived → Derived
  | .type i c => .type (ρ.onIndividual i) (ρ.onClass c)
  | .fact f => .fact (f.rename ρ)

theorem Argument.rename_refl (a : Argument) : a.rename .refl = a := by
  cases a <;> rfl

theorem Argument.rename_symm_rename (ρ : Renaming) (a : Argument) :
    (a.rename ρ).rename ρ.symm = a := by
  cases a <;> simp [Argument.rename, Renaming.symm]

theorem Atom.rename_refl (a : Atom) : a.rename .refl = a := by
  cases a <;> simp [Atom.rename, Argument.rename_refl] <;> rfl

theorem Atom.rename_symm_rename (ρ : Renaming) (a : Atom) : (a.rename ρ).rename ρ.symm = a := by
  cases a <;> simp [Atom.rename, Argument.rename_symm_rename] <;> simp [Renaming.symm]

theorem Rule.rename_refl (r : Rule) : r.rename .refl = r := by
  have hmap : ∀ atoms : List Atom, atoms.map (Atom.rename .refl) = atoms := fun atoms =>
    (List.map_congr_left fun a _ => a.rename_refl).trans (List.map_id atoms)
  rw [Rule.rename, hmap, hmap]

theorem Rule.rename_symm_rename (ρ : Renaming) (r : Rule) : (r.rename ρ).rename ρ.symm = r := by
  simp only [Rule.rename, List.map_map]
  have hmap : ∀ atoms : List Atom, atoms.map (Atom.rename ρ.symm ∘ Atom.rename ρ) = atoms :=
    fun atoms => (List.map_congr_left fun a _ => a.rename_symm_rename ρ).trans (List.map_id atoms)
  rw [hmap, hmap]

theorem Bindings.lookup_rename (ρ : Renaming) (b : Bindings) (name : String) :
    (b.rename ρ).lookup name = (b.lookup name).map (Value.rename ρ) := by
  induction b with
  | nil => rfl
  | cons entry b ih =>
    obtain ⟨name', v⟩ := entry
    rw [Bindings.rename, List.map_cons, List.lookup_cons, List.lookup_cons]
    split
    · rfl
    · exact ih

theorem Bindings.rename_refl (b : Bindings) : b.rename .refl = b := by
  rw [Bindings.rename]
  refine (List.map_congr_left fun entry _ => ?_).trans (List.map_id b)
  exact congrArg (Prod.mk entry.1) entry.2.rename_refl

/-! ### Interpretations -/

namespace Interpretation

/-- What is known, with its entities at their new places. -/
def rename (ρ : Renaming) (I : Interpretation) : Interpretation where
  facts := I.facts.map (Fact.rename ρ)
  types := I.types.map fun (i, c) => (ρ.onIndividual i, ρ.onClass c)

theorem rename_refl (I : Interpretation) : I.rename .refl = I := by
  have hfacts : I.facts.map (Fact.rename .refl) = I.facts :=
    (List.map_congr_left fun f _ => f.rename_refl).trans (List.map_id _)
  have htypes : I.types.map (fun t => (Renaming.refl.onIndividual t.1, Renaming.refl.onClass t.2))
      = I.types := List.map_id _
  rw [rename, hfacts, htypes]

theorem rename_le_iff {ρ : Renaming} {I J : Interpretation} :
    I.rename ρ ≤ J ↔ (∀ f ∈ I.facts, f.rename ρ ∈ J.facts) ∧
      ∀ i c, (i, c) ∈ I.types → (ρ.onIndividual i, ρ.onClass c) ∈ J.types := by
  rw [le_def, rename]
  constructor
  · rintro ⟨hf, ht⟩
    exact ⟨fun f h => hf (List.mem_map_of_mem h), fun i c h => ht (List.mem_map.mpr ⟨_, h, rfl⟩)⟩
  · rintro ⟨hf, ht⟩
    exact ⟨List.forall_mem_map.mpr hf, List.forall_mem_map.mpr fun t h => ht t.1 t.2 h⟩

theorem mem_facts_rename_symm {ρ : Renaming} {J : Interpretation} {f : Fact} :
    f ∈ (J.rename ρ.symm).facts ↔ f.rename ρ ∈ J.facts := by
  rw [rename, List.mem_map]
  constructor
  · rintro ⟨g, hg, rfl⟩
    have := g.rename_symm_rename ρ.symm
    rw [Renaming.symm_symm] at this
    rw [this]
    exact hg
  · intro h
    exact ⟨f.rename ρ, h, f.rename_symm_rename ρ⟩

theorem mem_types_rename_symm {ρ : Renaming} {J : Interpretation} {i : IndividualId}
    {c : ClassId} :
    (i, c) ∈ (J.rename ρ.symm).types ↔ (ρ.onIndividual i, ρ.onClass c) ∈ J.types := by
  rw [rename, List.mem_map]
  constructor
  · rintro ⟨⟨j, d⟩, ht, h⟩
    obtain ⟨rfl, rfl⟩ := by simpa using h
    simpa [Renaming.symm] using ht
  · intro h
    exact ⟨_, h, by simp [Renaming.symm]⟩

/-- Going back is below exactly if going there is. -/
theorem le_rename_symm_iff {ρ : Renaming} {I J : Interpretation} :
    I ≤ J.rename ρ.symm ↔ I.rename ρ ≤ J := by
  rw [rename_le_iff, le_def]
  constructor
  · rintro ⟨hf, ht⟩
    exact ⟨fun f h => mem_facts_rename_symm.mp (hf h), fun i c h => mem_types_rename_symm.mp (ht h)⟩
  · rintro ⟨hf, ht⟩
    exact ⟨fun f h => mem_facts_rename_symm.mpr (hf f h),
      fun t h => mem_types_rename_symm.mpr (ht t.1 t.2 h)⟩

theorem rename_mono {ρ : Renaming} {I J : Interpretation} (hIJ : I ≤ J) :
    I.rename ρ ≤ J.rename ρ :=
  rename_le_iff.mpr ⟨fun _ hf => List.mem_map_of_mem (hIJ.1 hf),
    fun _ _ ht => List.mem_map.mpr ⟨_, hIJ.2 ht, rfl⟩⟩

theorem holds_rename_symm {ρ : Renaming} {J : Interpretation} {d : Derived} :
    (J.rename ρ.symm).Holds d ↔ J.Holds (d.rename ρ) := by
  cases d with
  | type i c => exact mem_types_rename_symm
  | fact f => exact mem_facts_rename_symm

end Interpretation

/-! ### Ontologies -/

/-- A range with its entities at their new places. -/
def PropertyRange.rename (ρ : Renaming) : PropertyRange → PropertyRange
  | .classes es => .classes (es.map (ClassExpression.rename ρ))
  | .datatypes ds => .datatypes ds

/-- A property with the entities that it mentions at their new places. -/
def Property.rename (ρ : Renaming) (p : Property) : Property :=
  { p with
    domain := p.domain.map (ClassExpression.rename ρ)
    range := p.range.rename ρ
    inverseOf := p.inverseOf.map ρ.onProperty
    parents := p.parents.map ρ.onProperty }

/-- A class with the entities that it mentions at their new places. -/
def Class.rename (ρ : Renaming) (c : Class) : Class :=
  { c with
    isA := c.isA.map (ClassExpression.rename ρ)
    equivalentTo := c.equivalentTo.map (ClassExpression.rename ρ) }

theorem ClassExpression.map_rename_symm_rename (ρ : Renaming) (es : List ClassExpression) :
    (es.map (ClassExpression.rename ρ)).map (ClassExpression.rename ρ.symm) = es := by
  rw [List.map_map]
  exact (List.map_congr_left fun e _ => e.rename_symm_rename ρ).trans (List.map_id es)

theorem ClassExpression.map_rename_refl (es : List ClassExpression) :
    es.map (ClassExpression.rename .refl) = es :=
  (List.map_congr_left fun e _ => e.rename_refl).trans (List.map_id es)

theorem Property.rename_refl (p : Property) : p.rename .refl = p := by
  have hrange : p.range.rename .refl = p.range := by
    cases p.range with
    | classes es => exact congrArg PropertyRange.classes (ClassExpression.map_rename_refl es)
    | datatypes ds => rfl
  rw [Property.rename, hrange, ClassExpression.map_rename_refl]
  simp [Renaming.refl]

theorem Class.rename_refl (c : Class) : c.rename .refl = c := by
  rw [Class.rename, ClassExpression.map_rename_refl, ClassExpression.map_rename_refl]

theorem Property.rename_symm_rename (ρ : Renaming) (p : Property) :
    (p.rename ρ).rename ρ.symm = p := by
  have hrange : (p.range.rename ρ).rename ρ.symm = p.range := by
    cases p.range with
    | classes es =>
      exact congrArg PropertyRange.classes (ClassExpression.map_rename_symm_rename ρ es)
    | datatypes ds => rfl
  rw [Property.rename, Property.rename, hrange, ClassExpression.map_rename_symm_rename]
  simp [Renaming.symm, Function.comp_def]

theorem Class.rename_symm_rename (ρ : Renaming) (c : Class) :
    (c.rename ρ).rename ρ.symm = c := by
  rw [Class.rename, Class.rename, ClassExpression.map_rename_symm_rename,
    ClassExpression.map_rename_symm_rename]

theorem Property.rangeClasses_rename (ρ : Renaming) (p : Property) :
    (p.rename ρ).rangeClasses = p.rangeClasses.map (ClassExpression.rename ρ) := by
  rw [Property.rangeClasses, Property.rangeClasses, Property.rename]
  cases p.range <;> rfl

theorem ClassExpression.named?_rename (ρ : Renaming) (e : ClassExpression) :
    (e.rename ρ).named? = e.named?.map ρ.onClass := by
  cases e <;> rfl

theorem Class.parents_rename (ρ : Renaming) (c : Class) :
    (c.rename ρ).parents = c.parents.map ρ.onClass := by
  rw [Class.parents, Class.parents, Class.rename, List.filterMap_map, List.map_filterMap]
  exact congrFun (congrArg _ (funext fun e => e.named?_rename ρ)) _

theorem World.mem_individualIds {w : World} {i : IndividualId} :
    i ∈ w.individualIds ↔ (w.individual? i).isSome = true := by
  rw [World.individualIds, World.individual?]
  simp only [List.mem_map, List.mem_range, Option.isSome_iff_exists]
  constructor
  · rintro ⟨n, hn, rfl⟩
    exact ⟨_, Array.getElem?_eq_getElem hn⟩
  · rintro ⟨d, hd⟩
    exact ⟨i.index, (Array.getElem?_eq_some_iff.mp hd).1, rfl⟩

namespace Renaming

variable {ρ : Renaming} {w w' : World}

/-- The second ontology holds the entities of the first one at their new places, and its rules in
any order.  Of individuals only their number matters. -/
structure Reorders (ρ : Renaming) (w w' : World) : Prop where
  class? : ∀ c, w'.class? (ρ.onClass c) = (w.class? c).map (Class.rename ρ)
  property? : ∀ p, w'.property? (ρ.onProperty p) = (w.property? p).map (Property.rename ρ)
  individual? : ∀ i, (w'.individual? (ρ.onIndividual i)).isSome = (w.individual? i).isSome
  rules : ∀ r, r.rename ρ ∈ w'.rules ↔ r ∈ w.rules

/-- Of two properties that are declared to be each other's inverse the older one stays the older
one. -/
def KeepsOlder (ρ : Renaming) (w : World) : Prop :=
  ∀ p q, (w.getProperty p).inverseOf = some q → (w.getProperty q).inverseOf = some p →
    ((ρ.onProperty p).index < (ρ.onProperty q).index ↔ p.index < q.index)

theorem Reorders.getClass (h : ρ.Reorders w w') (c : ClassId) :
    w'.getClass (ρ.onClass c) = (w.getClass c).rename ρ := by
  rw [World.getClass, World.getClass, h.class?]
  cases w.class? c <;> rfl

theorem Reorders.getProperty (h : ρ.Reorders w w') (p : PropertyId) :
    w'.getProperty (ρ.onProperty p) = (w.getProperty p).rename ρ := by
  rw [World.getProperty, World.getProperty, h.property?]
  cases w.property? p <;> rfl

theorem Reorders.inverseOf_eq (h : ρ.Reorders w w') {p q : PropertyId} :
    (w'.getProperty (ρ.onProperty p)).inverseOf = some (ρ.onProperty q) ↔
      (w.getProperty p).inverseOf = some q := by
  rw [h.getProperty, Property.rename]
  simp

theorem Reorders.refl (w : World) : Renaming.refl.Reorders w w where
  class? := fun c => by
    rw [Option.map_congr fun d _ => d.rename_refl, Option.map_id']
    rfl
  property? := fun p => by
    rw [Option.map_congr fun d _ => d.rename_refl, Option.map_id']
    rfl
  individual? := fun _ => rfl
  rules := fun r => by rw [r.rename_refl]

theorem keepsOlder_refl (w : World) : Renaming.refl.KeepsOlder w := fun _ _ _ _ => Iff.rfl

/-- An ontology can be put back in its former order. -/
theorem Reorders.symm (h : ρ.Reorders w w') : ρ.symm.Reorders w' w where
  class? := fun c => by
    have := h.class? (ρ.onClass.symm c)
    rw [Equiv.apply_symm_apply] at this
    rw [this, Option.map_map]
    exact ((Option.map_congr fun d _ => d.rename_symm_rename ρ).trans Option.map_id').symm
  property? := fun p => by
    have := h.property? (ρ.onProperty.symm p)
    rw [Equiv.apply_symm_apply] at this
    rw [this, Option.map_map]
    exact ((Option.map_congr fun d _ => d.rename_symm_rename ρ).trans Option.map_id').symm
  individual? := fun i => by
    have := h.individual? (ρ.onIndividual.symm i)
    rw [Equiv.apply_symm_apply] at this
    exact this.symm
  rules := fun r => by
    have hback : (r.rename ρ.symm).rename ρ = r := r.rename_symm_rename ρ.symm
    have := h.rules (r.rename ρ.symm)
    rw [hback] at this
    exact this.symm

theorem KeepsOlder.symm (h : ρ.Reorders w w') (hold : ρ.KeepsOlder w) :
    ρ.symm.KeepsOlder w' := by
  intro p q hpq hqp
  have := hold (ρ.onProperty.symm p) (ρ.onProperty.symm q)
  rw [← h.inverseOf_eq, ← h.inverseOf_eq, Equiv.apply_symm_apply, Equiv.apply_symm_apply] at this
  exact (this hpq hqp).symm

/-- **Properties stand for the same relations afterwards.** -/
theorem Reorders.baseRelation (h : ρ.Reorders w w') (hold : ρ.KeepsOlder w) (p : PropertyId) :
    w'.baseRelation (ρ.onProperty p) = (w.baseRelation p).rename ρ := by
  rw [World.baseRelation, World.baseRelation]
  cases hp : (w.getProperty p).inverseOf with
  | none =>
    rw [h.getProperty, Property.rename, hp]
    rfl
  | some base =>
    rw [h.inverseOf_eq.mpr hp]
    dsimp only
    -- which of the two is the base is decided alike
    have holder : (w'.getProperty (ρ.onProperty base)).inverseOf = some (ρ.onProperty p) ∧
        (ρ.onProperty p).index < (ρ.onProperty base).index ↔
          (w.getProperty base).inverseOf = some p ∧ p.index < base.index := by
      rw [h.inverseOf_eq]
      exact and_congr_right fun hbase => hold p base hp hbase
    rw [if_congr holder rfl rfl]
    split <;> rfl

theorem Reorders.relation (h : ρ.Reorders w w') (hold : ρ.KeepsOlder w)
    (r : PropertyExpression) : w'.relation (r.rename ρ) = (w.relation r).rename ρ := by
  cases r with
  | named p => exact h.baseRelation hold p
  | inverse p =>
    rw [PropertyExpression.rename, World.relation, World.relation, h.baseRelation hold,
      PropertyExpression.reversed_rename]

theorem Reorders.mem_individualIds (h : ρ.Reorders w w') {i : IndividualId} :
    ρ.onIndividual i ∈ w'.individualIds ↔ i ∈ w.individualIds := by
  rw [World.mem_individualIds, World.mem_individualIds, h.individual?]

end Renaming

end Ontology
