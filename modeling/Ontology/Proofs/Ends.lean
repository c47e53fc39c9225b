import Ontology.Proofs.Vocabulary
import Ontology.Reasoning.Problem

/-!
# Domains and ranges of declarations

The domain and the range of a property are combinations of classes and of individuals.  There is no
way to write a restriction there, so that belonging to them is a matter of types alone.

## Main definitions

* `Property.ends` — the expressions in the domain and the range of a property.
* `World.HasPlainEnds` — a property whose domain and range read no property, or are those of others.

## Main results

* `Node.readProperties_of_toClassExpression` — what a node means reads no property.
* `Property.hasPlainEnds` — a property with a domain and a range that were read from nodes.
-/

namespace Ontology

/-- The expressions in the domain and the range of a property. -/
def Property.ends (p : Property) : List ClassExpression :=
  p.domain ++ p.rangeClasses

/-- The domain and the range of a property read no properties, as far as they are not taken over
from another property. -/
def World.HasPlainEnds (w : World) (p : Property) : Prop :=
  ∀ e ∈ p.ends, e.readProperties = [] ∨ ∃ q, e ∈ (w.getProperty q).ends

/-! ### Meanings of nodes -/

theorem Term.readProperties_of_toClassExpression {t : Term} {e : ClassExpression}
    (h : t.toClassExpression = .ok e) : e.readProperties = [] := by
  rw [toClassExpression] at h
  split at h
  · rw [← Except.ok.inj h]
    rfl
  · rw [← Except.ok.inj h]
    rfl
  · rw [← Except.ok.inj h]
    rfl
  · simp at h

namespace Node

mutual

theorem readProperties_of_bareExpression : ∀ {n : Node} {e : ClassExpression},
    n.bareExpression = .ok e → e.readProperties = []
  | .term t, e, h => Term.readProperties_of_toClassExpression h
  | .combination .or items, e, h | .combination .and items, e, h => by
    rw [bareExpression] at h
    obtain ⟨parts, hparts, h⟩ := exists_of_bind_eq_ok h
    rw [← Except.ok.inj h]
    exact readProperties_of_toClassExpressions hparts
  | .combination .oneOf items, e, h => by
    rw [bareExpression] at h
    obtain ⟨members, -, h⟩ := exists_of_bind_eq_ok h
    rw [← Except.ok.inj h]
    rfl
  | .container _ _, _, h | .raw _, _, h | .pairs _, _, h | .list _, _, h => by
    simp [bareExpression] at h
termination_by structural n => n

/-- The expression that a node means reads no property. -/
theorem readProperties_of_toClassExpression : ∀ {n : Node} {e : ClassExpression},
    n.toClassExpression = .ok e → e.readProperties = []
  | .container _ data, e, h => readProperties_of_bareExpression (n := data) h
  | .term t, e, h => Term.readProperties_of_toClassExpression h
  | .combination .or items, e, h | .combination .and items, e, h => by
    rw [toClassExpression] at h
    obtain ⟨parts, hparts, h⟩ := exists_of_bind_eq_ok h
    rw [← Except.ok.inj h]
    exact readProperties_of_toClassExpressions hparts
  | .combination .oneOf items, e, h => by
    rw [toClassExpression] at h
    obtain ⟨members, -, h⟩ := exists_of_bind_eq_ok h
    rw [← Except.ok.inj h]
    rfl
  | .raw _, _, h | .pairs _, _, h | .list _, _, h => by
    simp [toClassExpression] at h
termination_by structural n => n

theorem readProperties_of_toClassExpressions : ∀ {ns : List Node} {es : List ClassExpression},
    toClassExpressions ns = .ok es → ClassExpression.readPropertiesOfParts es = []
  | [], es, h => by
    rw [toClassExpressions, Except.ok.injEq] at h
    rw [← h]
    rfl
  | n :: rest, es, h => by
    rw [toClassExpressions] at h
    obtain ⟨e, he, h⟩ := exists_of_bind_eq_ok h
    obtain ⟨others, hothers, h⟩ := exists_of_bind_eq_ok h
    rw [← Except.ok.inj h, ClassExpression.readPropertiesOfParts,
      readProperties_of_toClassExpression he, readProperties_of_toClassExpressions hothers,
      List.append_nil]
termination_by structural ns => ns

end

theorem readProperties_of_toDomain {n : Node} {es : List ClassExpression}
    (h : n.toDomain = .ok es) : ∀ e ∈ es, e.readProperties = [] := by
  obtain ⟨e, he, h⟩ := exists_of_bind_eq_ok h
  rw [← Except.ok.inj h]
  intro e' he'
  rw [List.mem_singleton.mp he']
  exact readProperties_of_toClassExpression he

theorem readProperties_of_toRange {n : Node} {es : List ClassExpression}
    (h : n.toRange = .ok (.classes es)) : ∀ e ∈ es, e.readProperties = [] := by
  rw [toRange.eq_def] at h
  extract_lets alternatives datatypes at h
  split at h
  · obtain ⟨e, he, h⟩ := exists_of_bind_eq_ok h
    obtain rfl : [e] = es := PropertyRange.classes.inj (Except.ok.inj h)
    intro e' he'
    rw [List.mem_singleton.mp he']
    exact readProperties_of_toClassExpression he
  · split at h
    · simp at h
    · simp at h

end Node

/-- A property with a domain and a range that read no property. -/
theorem Property.hasPlainEnds {w : World} {p : Property}
    (hdomain : ∀ e ∈ p.domain, e.readProperties = [])
    (hrange : ∀ es, p.range = .classes es → ∀ e ∈ es, e.readProperties = []) :
    w.HasPlainEnds p := by
  intro e he
  left
  rcases List.mem_append.mp he with he | he
  · exact hdomain e he
  · rw [rangeClasses] at he
    split at he
    · next classes hclasses => exact hrange classes hclasses e he
    · cases he

end Ontology
