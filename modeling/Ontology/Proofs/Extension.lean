import Mathlib.Data.List.Infix
import Ontology.Proofs.Inferred
import Ontology.Proofs.Naming
import Ontology.Proofs.References

/-!
# Extensions of an ontology

An ontology grows without forgetting anything: entities keep their places and all that is said of
them, and new ones are put behind them.  Only two things can be added to what is there, restrictions
as further axioms and values of properties that are not functional.

## Main definitions

* `World.IsExtendedBy` — nothing of an ontology is lost in another one.
* `World.Has`, `World.Knows` — an entity is there; it is there, has a name or is part of the
  declaration of a property.
* `Write`, `World.write` — a change of the stated values of an individual.

## Main results

* `World.isExtendedBy_perform` — a call that adds an entity extends an ontology.
* `World.isExtendedBy_write` — so does a value, unless it replaces those of a property that is not
  functional.
* `World.IsExtendedBy.knows` — what is known stays known.
-/

namespace Ontology

namespace World

variable {w w' w₁ w₂ w₃ : World}

/-- Nothing of an ontology is lost in another one.  A name of an imported class, which is not in the
table of names, can still be declared. -/
structure IsExtendedBy (w w' : World) : Prop where
  iri : w'.iri = w.iri
  names : ∀ name e, w.names.get? name = some e → w'.names.get? name = some e
  lookup : ∀ name e, w.lookup? name = some e → w'.lookup? name = some e ∨
    w.names.get? name = none ∧ w'.names.get? name ≠ none
  classes : ∀ c d, w.class? c = some d → ∃ axioms : List Restriction,
    w'.class? c = some { d with isA := d.isA ++ axioms.map Restriction.toExpression }
  properties : ∀ p d, w.property? p = some d → w'.property? p = some d
  individuals : ∀ i d, w.individual? i = some d →
    ∃ (axioms : List Restriction) (facts : Assertions),
      w'.individual? i = some { d with isA := d.isA ++ axioms.map Restriction.toExpression, facts }
  rules : ∀ (r : RuleId) d, w.rules[r.index]? = some d → w'.rules[r.index]? = some d
  values : ∀ i p, (w'.getProperty p).characteristics.functional = false →
    w.assertedValues i p <+: w'.assertedValues i p
  comments : w.comments <+: w'.comments
  imports : w.imports.toList <+: w'.imports.toList
  differentIndividuals : w.differentIndividuals <+: w'.differentIndividuals

namespace IsExtendedBy

protected theorem refl (w : World) : w.IsExtendedBy w where
  iri := rfl
  names _ _ h := h
  lookup _ _ h := .inl h
  classes c d h := ⟨[], by simpa using h⟩
  properties _ _ h := h
  individuals i d h := ⟨[], d.facts, by simpa using h⟩
  rules _ _ h := h
  values _ _ _ := List.prefix_refl _
  comments := List.prefix_refl _
  imports := List.prefix_refl _
  differentIndividuals := List.prefix_refl _

/-- A property that is functional stays so. -/
theorem functional (h : w.IsExtendedBy w') {p : PropertyId}
    (hp : (w'.getProperty p).characteristics.functional = false) :
    (w.getProperty p).characteristics.functional = false := by
  cases hd : w.property? p with
  | none => rw [getProperty, hd]; rfl
  | some d =>
    rw [getProperty, h.properties p d hd] at hp
    rw [getProperty, hd]
    exact hp

protected theorem trans (h : w₁.IsExtendedBy w₂) (h' : w₂.IsExtendedBy w₃) :
    w₁.IsExtendedBy w₃ where
  iri := h'.iri.trans h.iri
  names name e he := h'.names name e (h.names name e he)
  lookup name e he := by
    rcases h.lookup name e he with he₂ | ⟨hnew, hsome⟩
    · -- a name that is hidden later on was not declared before either
      refine (h'.lookup name e he₂).imp_right fun ⟨hnew, hsome⟩ => ⟨?_, hsome⟩
      by_contra hname
      obtain ⟨e₁, he₁⟩ := Option.ne_none_iff_exists'.mp hname
      rw [h.names name e₁ he₁] at hnew
      cases hnew
    · obtain ⟨e₂, he₂⟩ := Option.ne_none_iff_exists'.mp hsome
      exact .inr ⟨hnew, by rw [h'.names name e₂ he₂]; exact Option.some_ne_none _⟩
  classes c d hd := by
    obtain ⟨axioms, hd₂⟩ := h.classes c d hd
    obtain ⟨further, hd₃⟩ := h'.classes c _ hd₂
    exact ⟨axioms ++ further, by simpa using hd₃⟩
  properties p d hd := h'.properties p d (h.properties p d hd)
  individuals i d hd := by
    obtain ⟨axioms, _, hd₂⟩ := h.individuals i d hd
    obtain ⟨further, facts, hd₃⟩ := h'.individuals i _ hd₂
    exact ⟨axioms ++ further, facts, by simpa using hd₃⟩
  rules r d hd := h'.rules r d (h.rules r d hd)
  values i p hp := (h.values i p (h'.functional hp)).trans (h'.values i p hp)
  comments := h.comments.trans h'.comments
  imports := h.imports.trans h'.imports
  differentIndividuals := h.differentIndividuals.trans h'.differentIndividuals

end IsExtendedBy

/-! ### What is known -/

/-- The entity of a reference is one of the ontology. -/
def Has (w : World) (r : Reference) : Prop :=
  w.HasEntry r.entity

/-- The entity of a reference is there, has a name or is part of the declaration of a property. -/
def Knows (w : World) (r : Reference) : Prop :=
  w.Has r ∨ w.Offers r ∨ ∃ p, r ∈ (w.getProperty p).references

/-- All that the keywords of a body refer to is known. -/
def KnowsBody (w : World) (body : List (String × Node)) : Prop :=
  ∀ keyword n, body.lookup keyword = some n → ∀ r ∈ n.references, w.Knows r

theorem knowsBody_of_readKeywords {entries : List (Tree × Tree)} {body : List (String × Node)}
    (h : w.readKeywords entries = .ok body) : w.KnowsBody body :=
  fun _ _ hn r hr => .inr (.inl (offers_of_readKeywords h hn r hr))

theorem has_class_iff {c : ClassId} : w.Has (.class c) ↔ ∃ d, w.class? c = some d := by
  rw [class?, ← Option.isSome_iff_exists, isSome_getElem?]
  rfl

theorem has_property_iff {p : PropertyId} : w.Has (.property p) ↔ ∃ d, w.property? p = some d := by
  rw [property?, ← Option.isSome_iff_exists, isSome_getElem?]
  rfl

theorem has_individual_iff {i : IndividualId} :
    w.Has (.individual i) ↔ ∃ d, w.individual? i = some d := by
  rw [individual?, ← Option.isSome_iff_exists, isSome_getElem?]
  rfl

theorem mem_classIds {c : ClassId} : c ∈ w.classIds ↔ w.Has (.class c) := by
  rw [classIds, List.mem_map]
  constructor
  · rintro ⟨n, hn, rfl⟩
    exact List.mem_range.mp hn
  · exact fun h => ⟨c.index, List.mem_range.mpr h, rfl⟩

theorem mem_propertyIds {p : PropertyId} : p ∈ w.propertyIds ↔ w.Has (.property p) := by
  rw [propertyIds, List.mem_map]
  constructor
  · rintro ⟨n, hn, rfl⟩
    exact List.mem_range.mp hn
  · exact fun h => ⟨p.index, List.mem_range.mpr h, rfl⟩

theorem mem_individualIds_iff_has {i : IndividualId} :
    i ∈ w.individualIds ↔ w.Has (.individual i) := by
  rw [mem_individualIds, has_individual_iff, Option.isSome_iff_exists]

theorem getClass_eq {c : ClassId} {d : Class} (h : w.class? c = some d) : w.getClass c = d := by
  rw [getClass, h, Option.getD_some]

theorem getProperty_eq {p : PropertyId} {d : Property} (h : w.property? p = some d) :
    w.getProperty p = d := by
  rw [World.getProperty, h, Option.getD_some]

theorem getIndividual_eq {i : IndividualId} {d : Individual} (h : w.individual? i = some d) :
    w.getIndividual i = d := by
  rw [getIndividual, h, Option.getD_some]

/-- A class of which something is said is there. -/
theorem class?_of_mem_isA {c : ClassId} {e : ClassExpression} (h : e ∈ (w.getClass c).isA) :
    w.class? c = some (w.getClass c) := by
  cases hd : w.class? c with
  | none =>
    rw [getClass, hd] at h
    exact absurd h List.not_mem_nil
  | some d => rw [getClass_eq hd]

/-- An individual of which something is said is there. -/
theorem individual?_of_mem_isA {i : IndividualId} {e : ClassExpression}
    (h : e ∈ (w.getIndividual i).isA) : w.individual? i = some (w.getIndividual i) := by
  cases hd : w.individual? i with
  | none =>
    rw [getIndividual, hd] at h
    exact absurd h List.not_mem_nil
  | some d => rw [getIndividual_eq hd]

/-- A property that refers to something is there. -/
theorem property?_of_mem_references {p : PropertyId} {r : Reference}
    (h : r ∈ (w.getProperty p).references) : w.property? p = some (w.getProperty p) := by
  cases hd : w.property? p with
  | none =>
    rw [getProperty, hd] at h
    exact absurd h List.not_mem_nil
  | some d => rw [getProperty_eq hd]

namespace IsExtendedBy

theorem has (h : w.IsExtendedBy w') {r : Reference} (hr : w.Has r) : w'.Has r := by
  cases r with
  | «class» c =>
    obtain ⟨d, hd⟩ := has_class_iff.mp hr
    obtain ⟨axioms, hd⟩ := h.classes c d hd
    exact has_class_iff.mpr ⟨_, hd⟩
  | property p =>
    obtain ⟨d, hd⟩ := has_property_iff.mp hr
    exact has_property_iff.mpr ⟨d, h.properties p d hd⟩
  | individual i =>
    obtain ⟨d, hd⟩ := has_individual_iff.mp hr
    obtain ⟨axioms, facts, hd⟩ := h.individuals i d hd
    exact has_individual_iff.mpr ⟨_, hd⟩

theorem offers (h : w.IsExtendedBy w') {r : Reference} (hr : w.Offers r) : w'.Offers r := by
  rcases hr with ⟨name, hname⟩ | ⟨i, hi, hr⟩
  · exact .inl ⟨name, h.names name _ hname⟩
  · exact .inr ⟨i, h.imports.subset hi, hr⟩

/-- A property that is there stays as it is. -/
theorem getProperty (h : w.IsExtendedBy w') {p : PropertyId} (hp : w.Has (.property p)) :
    w'.getProperty p = w.getProperty p := by
  obtain ⟨d, hd⟩ := has_property_iff.mp hp
  rw [World.getProperty, World.getProperty, hd, h.properties p d hd]

/-- A class that is there keeps its name. -/
theorem getClass_name (h : w.IsExtendedBy w') {c : ClassId} (hc : w.Has (.class c)) :
    (w'.getClass c).name = (w.getClass c).name := by
  obtain ⟨d, hd⟩ := has_class_iff.mp hc
  obtain ⟨axioms, hd'⟩ := h.classes c d hd
  rw [getClass_eq hd, getClass_eq hd']

/-- What is known stays known. -/
theorem knows (h : w.IsExtendedBy w') {r : Reference} (hr : w.Knows r) : w'.Knows r := by
  rcases hr with hr | hr | ⟨p, hr⟩
  · exact .inl (h.has hr)
  · exact .inr (.inl (h.offers hr))
  · have hp : w.Has (.property p) := has_property_iff.mpr ⟨_, property?_of_mem_references hr⟩
    exact .inr (.inr ⟨p, by rw [h.getProperty hp]; exact hr⟩)

theorem knowsBody (h : w.IsExtendedBy w') {body : List (String × Node)} (hbody : w.KnowsBody body) :
    w'.KnowsBody body :=
  fun keyword n hn r hr => h.knows (hbody keyword n hn r hr)

end IsExtendedBy

/-! ### New entities -/

/-- A new name hides at most that of an imported class. -/
theorem isExtendedBy_insert {name : String} {e : Entity} {names : Namespace}
    (h : w.names.insert name e = .ok names) : w.IsExtendedBy { w with names } :=
  { IsExtendedBy.refl w with
    names := fun _ _ => Namespace.get?_mono h
    lookup := fun name' e' he' => by
      obtain ⟨hnew, hnames⟩ := Namespace.insert_eq_ok_iff.mp h
      by_cases heq : name' = name
      · refine .inr ⟨heq ▸ hnew, ?_⟩
        change names.get? name' ≠ none
        rw [Namespace.get?_of_insert h, if_pos heq]
        exact Option.some_ne_none _
      · -- qualifiers and imports are as before
        have hget : names.get? name' = w.names.get? name' := by
          rw [Namespace.get?_of_insert h, if_neg heq]
        have hsplit : names.splitQualified? name' = w.names.splitQualified? name' := by
          rw [← hnames]; rfl
        refine .inl ?_
        rw [lookup?] at he' ⊢
        rw [hget, hsplit]
        exact he' }

/-- A name keeps its qualifier, as the oldest one decides. -/
theorem splitQualified?_registerQualifier {ns : Namespace} {name : String} {part : Nat × String}
    (qualifier : String) (place : Nat) (h : ns.splitQualified? name = some part) :
    (ns.registerQualifier qualifier place).splitQualified? name = some part := by
  rw [Namespace.splitQualified?] at h ⊢
  split at h
  · next hcolon =>
    rw [if_pos hcolon, Namespace.registerQualifier, List.findSome?_append, h, Option.some_or]
  · cases h

theorem isExtendedBy_addImport (w : World) (i : Import) : w.IsExtendedBy (w.addImport i) :=
  have hget : ∀ name, (w.addImport i).names.get? name = w.names.get? name := fun name => by
    cases hq : i.qualifier <;> simp [addImport, Namespace.registerQualifier, Namespace.get?, hq]
  -- new qualifiers stand behind the others, so what has decided still does
  have hsplit : ∀ name part, w.names.splitQualified? name = some part →
      (w.addImport i).names.splitQualified? name = some part := fun name part hpart => by
    have hiri := splitQualified?_registerQualifier i.iri w.imports.size hpart
    cases hq : i.qualifier with
    | none => simpa [addImport, hq] using hiri
    | some qualifier =>
      simpa [addImport, hq] using splitQualified?_registerQualifier qualifier w.imports.size hiri
  { IsExtendedBy.refl w with
    names := fun name e he => by rw [hget]; exact he
    lookup := fun name e he => .inl (by
      rw [lookup?] at he ⊢
      rw [hget]
      split at he
      · exact he
      · simp only [Option.bind_eq_bind, Option.bind_eq_some_iff] at he ⊢
        obtain ⟨⟨place, localName⟩, hpart, j, hj, hc⟩ := he
        exact ⟨_, hsplit _ _ hpart, j, getElem?_push_of_eq_some hj i, hc⟩)
    imports := by
      change _ <+: (w.imports.push i).toList
      rw [Array.toList_push]
      exact List.prefix_append _ _ }

/-- A new individual has no values. -/
theorem assertedValues_put (w : World) (a : Addition) (i : IndividualId) (p : PropertyId) :
    (a.put w).assertedValues i p = w.assertedValues i p := by
  cases a with
  | individual name type =>
    simp only [assertedValues, getIndividual, individual?, Addition.put, Array.getElem?_push]
    split
    · next hi =>
      rw [hi, Array.getElem?_eq_none (Nat.le_refl _)]
      rfl
    · rfl
  | _ => rfl

/-- What a call puts behind the others changes nothing before it. -/
theorem isExtendedBy_put (w : World) (a : Addition) : w.IsExtendedBy (a.put w) := by
  cases a with
  | «class» c | importedClass name localName iri =>
    exact { IsExtendedBy.refl w with
      classes := fun c d hd => ⟨[], by
        rw [List.map_nil, List.append_nil]
        exact getElem?_push_of_eq_some hd _⟩ }
  | property p =>
    exact { IsExtendedBy.refl w with
      properties := fun p d hd => getElem?_push_of_eq_some hd _
      values := fun _ _ _ => List.prefix_refl _ }
  | individual name type =>
    exact { IsExtendedBy.refl w with
      individuals := fun i d hd => ⟨[], d.facts, by
        rw [List.map_nil, List.append_nil]
        exact getElem?_push_of_eq_some hd _⟩
      values := fun i p _ => by rw [assertedValues_put] }
  | rule r =>
    exact { IsExtendedBy.refl w with rules := fun _ _ hd => getElem?_push_of_eq_some hd _ }
  | ontology i => exact isExtendedBy_addImport w i

/-- A call that adds an entity or an import extends an ontology. -/
theorem isExtendedBy_perform {a : Addition} {o : Option Entity} (h : a.perform w = .ok (w', o)) :
    w.IsExtendedBy w' := by
  rcases Addition.perform_eq_ok h with ⟨-, rfl⟩ | ⟨name, e, names, -, hnames, rfl⟩
  · exact isExtendedBy_put w a
  · exact (isExtendedBy_insert hnames).trans (isExtendedBy_put _ a)

/-- A call that tells an entity has declared a name for it and put it at its place. -/
theorem declaration?_of_perform {a : Addition} {e : Entity} (h : a.perform w = .ok (w', some e)) :
    ∃ name names, a.declaration? w = some (name, e) ∧ w' = a.put { w with names } := by
  rw [Addition.perform_eq] at h
  split at h
  · simp at h
  · next name e' hentry =>
    split at h
    · next names _ =>
      obtain ⟨rfl, he⟩ := Prod.mk.inj (Except.ok.inj h)
      exact ⟨name, names, by rw [hentry, Option.some.inj he], rfl⟩
    · cases h

/-- A call adds the entity that it tells. -/
theorem hasEntry_of_perform {a : Addition} {e : Entity} (h : a.perform w = .ok (w', some e)) :
    w'.HasEntry e ∧ ¬w.HasEntry e := by
  obtain ⟨name, names, hentry, rfl⟩ := declaration?_of_perform h
  exact ⟨(Addition.hasEntry_put hentry names e).mpr (.inl rfl),
    Addition.not_hasEntry_of_declaration? hentry⟩

/-! ### Axioms, comments and groups -/

theorem isExtendedBy_addClassAxiom (w : World) (c : ClassId) (r : Restriction) :
    w.IsExtendedBy (w.addClassAxiom c r.toExpression) :=
  { IsExtendedBy.refl w with
    classes := fun c' d hd => by
      have hd : w.classes[c'.index]? = some d := hd
      simp only [class?, addClassAxiom, modifyClass, Array.getElem?_modify, hd]
      split
      · exact ⟨[r], rfl⟩
      · exact ⟨[], by simp⟩ }

theorem isExtendedBy_addIndividualAxiom (w : World) (i : IndividualId) (r : Restriction) :
    w.IsExtendedBy (w.addIndividualAxiom i r.toExpression) :=
  { IsExtendedBy.refl w with
    individuals := fun j d hd => by
      have hd : w.individuals[j.index]? = some d := hd
      simp only [individual?, addIndividualAxiom, modifyIndividual, Array.getElem?_modify, hd]
      split
      · exact ⟨[r], d.facts, rfl⟩
      · exact ⟨[], d.facts, by simp⟩
    values := fun j p _ => by
      rw [assertedValues, assertedValues, addIndividualAxiom, getIndividual_modifyIndividual]
      split <;> exact List.prefix_refl _ }

theorem isExtendedBy_addComment (w : World) (comment : String) :
    w.IsExtendedBy (w.addComment comment) :=
  { IsExtendedBy.refl w with comments := List.prefix_append _ _ }

theorem isExtendedBy_addDifferent (w : World) (group : List IndividualId) :
    w.IsExtendedBy (w.addDifferent group) :=
  { IsExtendedBy.refl w with differentIndividuals := List.prefix_append _ _ }

theorem isExtendedBy_setAttribute (w : World) (e : Entity) (key value : String) :
    w.IsExtendedBy { w with names := w.names.setAttribute e key value } :=
  { IsExtendedBy.refl w with }

end World

/-! ### Values -/

/-- A change of the stated values of an individual. -/
inductive Write where
  /-- A value takes the place of those before it. -/
  | assign (subject : IndividualId) (property : PropertyId) (value : Value)
  /-- A value is added behind the others. -/
  | append (subject : IndividualId) (property : PropertyId) (value : Value)
  /-- The individual of an entry about a relation is added behind the others. -/
  | enter (subject : IndividualId) (property : PropertyId) (entry : IndividualId)
  deriving DecidableEq, Repr

namespace Write

/-- The individual whose values change. -/
def subject : Write → IndividualId
  | .assign s _ _ | .append s _ _ | .enter s _ _ => s

/-- The property whose values change. -/
def property : Write → PropertyId
  | .assign _ p _ | .append _ p _ | .enter _ p _ => p

/-- The value that is written. -/
def value : Write → Value
  | .assign _ _ v | .append _ _ v => v
  | .enter _ _ i => .individual i

/-- What a write refers to. -/
def references (x : Write) : List Reference :=
  .individual x.subject :: .property x.property :: x.value.references

theorem forall_mem_references {x : Write} {P : Reference → Prop} : (∀ r ∈ x.references, P r) ↔
    P (.individual x.subject) ∧ P (.property x.property) ∧ ∀ r ∈ x.value.references, P r := by
  rw [references, List.forall_mem_cons, List.forall_mem_cons]

/-- What a write makes of the values of an individual. -/
def change (a : Assertions) : Write → Assertions
  | .assign _ p v => a.set p v
  | .append _ p v => a.push p v
  | .enter _ p i => a.push p (.individual i)

/-- The values of a property after a write. -/
def valuesAfter (vs : List Value) : Write → List Value
  | .assign _ _ v => [v]
  | .append _ _ v => vs ++ [v]
  | .enter _ _ i => vs ++ [.individual i]

/-- Only the row of the property changes. -/
theorem lookup_change (x : Write) (a : Assertions) (p : PropertyId) :
    (x.change a).rows.lookup p =
      if p = x.property then some (x.valuesAfter (a.get x.property)) else a.rows.lookup p := by
  cases x <;> exact Assertions.lookup_modifyRows a.sorted

/-- A write leaves the values of all other properties as they were. -/
theorem get_change (x : Write) (a : Assertions) (p : PropertyId) :
    (x.change a).get p = if p = x.property then x.valuesAfter (a.get p) else a.get p := by
  rw [Assertions.get, lookup_change]
  split
  · next hp => rw [hp]; rfl
  · rfl

end Write

namespace World

variable {w : World}

/-- What a write makes of an ontology. -/
def write (w : World) : Write → World
  | .assign s p v => w.setFact s p v
  | .append s p v => w.pushFact s p v
  | .enter s p i => w.pushFact s p (.individual i)

theorem write_eq (w : World) (x : Write) :
    w.write x = w.modifyIndividual x.subject fun d => { d with facts := x.change d.facts } := by
  cases x <;> rfl

/-- A write leaves all other individuals as they were. -/
theorem individual?_write_of_ne {x : Write} {i : IndividualId} (h : x.subject ≠ i) :
    (w.write x).individual? i = w.individual? i := by
  have hindex : x.subject.index ≠ i.index := fun heq =>
    h (congrArg IndividualId.mk heq)
  rw [write_eq, individual?, modifyIndividual, Array.getElem?_modify, if_neg hindex, individual?]

theorem assertedValues_write (w : World) (x : Write) (i : IndividualId) (p : PropertyId) :
    (w.write x).assertedValues i p =
      if x.subject = i ∧ i ∈ w.individualIds ∧ p = x.property then
        x.valuesAfter (w.assertedValues i p)
      else w.assertedValues i p := by
  rw [assertedValues, write_eq, getIndividual_modifyIndividual, assertedValues]
  by_cases hi : x.subject = i ∧ i ∈ w.individualIds
  · rw [if_pos hi]
    dsimp only
    rw [Write.get_change]
    by_cases hp : p = x.property
    · rw [if_pos hp, if_pos ⟨hi.1, hi.2, hp⟩]
    · rw [if_neg hp, if_neg fun h => hp h.2.2]
  · rw [if_neg hi, if_neg fun h => hi ⟨h.1, h.2.1⟩]

/-- A value extends an ontology unless it replaces those of a property that is not functional. -/
theorem isExtendedBy_write {x : Write} (h : ∀ s p v, x = .assign s p v →
    (w.getProperty p).characteristics.functional = true) : w.IsExtendedBy (w.write x) := by
  rw [write_eq]
  refine { IsExtendedBy.refl w with
    individuals := fun i d hd => ?_
    values := fun i p hp => ?_ }
  · have hd : w.individuals[i.index]? = some d := hd
    simp only [individual?, modifyIndividual, Array.getElem?_modify, hd]
    split
    · exact ⟨[], x.change d.facts, by simp⟩
    · exact ⟨[], d.facts, by simp⟩
  · rw [← write_eq, assertedValues_write]
    split
    · next hi =>
      cases x with
      | assign s q v =>
        -- the property would have to be functional
        obtain rfl : p = q := hi.2.2
        exact absurd ((h s p v rfl).symm.trans hp) (by decide)
      | append s q v | enter s q j => exact List.prefix_append _ _
    · exact List.prefix_refl _

end World

end Ontology
