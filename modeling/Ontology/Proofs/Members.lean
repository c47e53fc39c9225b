import Ontology.Proofs.Course
import Ontology.Proofs.Inferred
import Ontology.Proofs.Scopes

/-!
# What reasoning is about

Reasoning invents no individuals.  Where an ontology mentions only individuals of its own, what is
known of them relates only these to each other, after each round, after each search, and in the end.

## Main definitions

* `World.IsSelfContained` — an ontology mentions individuals of its own only.
* `Derived.Concerns` — a fact or a type is about individuals of an ontology.
* `World.members` — the individuals of an ontology as a scope.

## Main results

* `World.IsSelfContained.keepsTo` — what such an ontology adds is about individuals of its own.
* `World.concerns_of_reason` — **reasoning is about the individuals of the ontology.**
* `World.concernsMembers_of_infer` — a report can be kept as a whole.
-/

namespace Ontology

/-- The arguments of an atom. -/
def Atom.arguments : Atom → List Argument
  | .type _ a => [a]
  | .fact _ s o => [s, o]
  | .same a b | .different a b => [a, b]

/-- A value that is an individual is one of the ontology. -/
def Value.Concerns (w : World) : Value → Prop
  | .individual i => i ∈ w.individualIds
  | .expression _ | .literal _ => True

instance (w : World) : DecidablePred (Value.Concerns w)
  | .individual i => inferInstanceAs (Decidable (i ∈ w.individualIds))
  | .expression _ | .literal _ => inferInstanceAs (Decidable True)

/-- An argument that is an individual is one of the ontology. -/
def Argument.Concerns (w : World) : Argument → Prop
  | .individual i => i ∈ w.individualIds
  | .variable _ | .literal _ => True

instance (w : World) : DecidablePred (Argument.Concerns w)
  | .individual i => inferInstanceAs (Decidable (i ∈ w.individualIds))
  | .variable _ | .literal _ => inferInstanceAs (Decidable True)

/-- A fact or a type is about individuals of an ontology. -/
def Derived.Concerns (w : World) : Derived → Prop
  | .type i _ => i ∈ w.individualIds
  | .fact f => f.subject ∈ w.individualIds ∧ f.value.Concerns w

/-- All that is known is about individuals of an ontology. -/
def Interpretation.Concerns (w : World) (I : Interpretation) : Prop :=
  ∀ d, I.Holds d → d.Concerns w

/-- An ontology mentions individuals of its own only. -/
structure World.IsSelfContained (w : World) : Prop where
  facts : ∀ f ∈ w.interpretation.facts, f.value.Concerns w
  rules : ∀ r ∈ w.rules, ∀ atom ∈ r.body ++ r.head, ∀ a ∈ atom.arguments, a.Concerns w
  definitions : ∀ d ∈ w.definitions, ∀ i ∈ w.candidates d.2, i ∈ w.individualIds

instance (w : World) : Decidable w.IsSelfContained :=
  decidable_of_iff ((∀ f ∈ w.interpretation.facts, f.value.Concerns w) ∧
      (∀ r ∈ w.rules, ∀ atom ∈ r.body ++ r.head, ∀ a ∈ atom.arguments, a.Concerns w) ∧
      ∀ d ∈ w.definitions, ∀ i ∈ w.candidates d.2, i ∈ w.individualIds)
    ⟨fun ⟨hfacts, hrules, hdefinitions⟩ => ⟨hfacts, hrules, hdefinitions⟩,
      fun h => ⟨h.facts, h.rules, h.definitions⟩⟩

/-! ### Members as a scope -/

namespace World

variable {w : World} {options : InferenceOptions} {I : Interpretation}

/-- All classes and properties, and the values that are about individuals of an ontology. -/
def members (w : World) : Scope where
  classes _ := True
  properties _ := True
  values v := v.Concerns w

theorem concerns_iff {d : Derived} : d.Concerns w ↔ d.LiesIn w.members := by
  cases d with
  | type i c => exact (and_iff_left trivial).symm
  | fact f => exact and_congr_right fun _ => (and_iff_right trivial).symm

theorem interpretation_concerns_iff : I.Concerns w ↔ I.LiesIn w.members :=
  forall_congr' fun _ => imp_congr_right fun _ => concerns_iff

theorem liesIn_of_concerns {a : Argument} (h : a.Concerns w) : a.LiesIn w.members := by
  cases a with
  | «variable» name => trivial
  | individual i => exact h
  | literal l => trivial

/-- An ontology that mentions individuals of its own only adds nothing about others. -/
theorem IsSelfContained.keepsTo (hw : w.IsSelfContained) : w.KeepsTo w.members where
  rules r hr atom hatom := by
    have harguments : ∀ a ∈ atom.arguments, a.LiesIn w.members :=
      fun a ha => liesIn_of_concerns (hw.rules r hr atom hatom a ha)
    cases atom with
    | type c a => exact ⟨trivial, harguments a (by simp [Atom.arguments])⟩
    | fact p s o =>
      have hs := harguments s (by simp [Atom.arguments])
      exact ⟨trivial, hs, harguments o (by simp [Atom.arguments])⟩
    | same x y | different x y =>
      have hx := harguments x (by simp [Atom.arguments])
      exact ⟨hx, harguments y (by simp [Atom.arguments])⟩
  inverses _ _ _ := ⟨trivial, trivial⟩
  superproperties _ _ _ := trivial
  ends _ _ _ _ _ := trivial
  superclasses _ _ _ := trivial
  definitions c e he :=
    ⟨trivial, fun _ _ => trivial, hw.definitions (c, e) (mem_definitions.mpr he)⟩

/-- Saturation adds nothing about other individuals. -/
theorem concerns_saturate (hw : w.IsSelfContained) (hI : I.Concerns w) {n : Nat} {s : Saturated}
    (h : w.saturate n I = .ok s) : s.interpretation.Concerns w := by
  rw [interpretation_concerns_iff] at hI ⊢
  exact hI.saturateFrom hw.keepsTo (saturate_eq_ok h)

/-! ### Reasoning -/

theorem concerns_interpretation (hw : w.IsSelfContained) : w.interpretation.Concerns w := by
  rintro (⟨i, c⟩ | f) hd
  · exact mem_individualIds_of_mem_directTypes (mem_types_interpretation.mp hd)
  · exact ⟨mem_individualIds_of_mem_values (mem_facts_interpretation.mp hd), hw.facts f hd⟩

/-- What a search commits to is about individuals of the ontology. -/
theorem concerns_addFacts_entailed (hI : I.Concerns w) {maxModels : Nat}
    {o : SearchProblem.Outcome} (h : (w.searchProblem I).solve maxModels = .ok o) :
    (I.addFacts o.entailed).Concerns w := by
  rw [interpretation_concerns_iff] at hI ⊢
  refine hI.addFacts fun f hf => ?_
  have hlink : f ∈ w.links := entailed_subset_links h hf
  simp only [links, List.mem_flatMap, List.mem_map] at hlink
  obtain ⟨s, hs, p, -, o, ho, rfl⟩ := hlink
  exact ⟨hs, trivial, ho⟩

/-- **Reasoning is about the individuals of the ontology**, if the ontology is. -/
theorem concerns_of_reason (hw : w.IsSelfContained) {final : Reasoning}
    (h : w.reason options = .ok final) : final.interpretation.Concerns w := by
  obtain ⟨_, s, later, -, hs, hlater⟩ := reason_eq_ok_iff.mp h
  refine hlater.invariant (fun I o s hI hsolve hsaturate => ?_)
    (concerns_saturate hw (concerns_interpretation hw) hs)
  exact concerns_saturate hw (concerns_addFacts_entailed hI hsolve) hsaturate

/-- A report about an ontology that mentions individuals of its own only can be kept as a whole. -/
theorem concernsMembers_of_infer (hw : w.IsSelfContained) {report : InferenceReport}
    (h : w.infer options = .ok report) : report.ConcernsMembers w := by
  obtain ⟨final, hfinal, htypes, hfacts, -⟩ := infer_eq_ok h
  have hconcerns := concerns_of_reason hw hfinal
  constructor
  · rintro ⟨i, c⟩ ht
    exact hconcerns (.type i c) ((htypes _).mp ht).1
  · intro f hf
    exact (hconcerns (.fact f) ((hfacts f).mp hf).1).1

end World

end Ontology
