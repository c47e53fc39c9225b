import Ontology.Proofs.Closure

/-!
# Scopes

Saturation puts together what it finds: the entities that a consequence is about stand in known
facts and types, in rules, or in what an ontology says of its classes and properties.  Where all of
these lie within a scope, so does whatever saturation arrives at.

## Main definitions

* `Scope` — classes, properties and values that facts and types may be about.
* `Interpretation.LiesIn` — all that is known is about these.
* `World.KeepsTo` — so is what an ontology adds to it.

## Main results

* `Rule.Derives.liesIn` — what a rule derives is about what is known or mentioned in the rule.
* `Interpretation.LiesIn.saturationRound` — **a round stays within a scope.**
* `Interpretation.LiesIn.saturateFrom` — and so does saturation.
-/

namespace Ontology

/-- Classes, properties and values that facts and types may be about.  An individual is in a scope
if it is as a value. -/
structure Scope where
  classes : ClassId → Prop
  properties : PropertyId → Prop
  values : Value → Prop

section LiesIn

variable (S : Scope)

/-- A fact or a type is about entities of a scope. -/
def Derived.LiesIn : Derived → Prop
  | .type i c => S.values (.individual i) ∧ S.classes c
  | .fact f => S.values (.individual f.subject) ∧ S.properties f.property ∧ S.values f.value

/-- All that is known is about entities of a scope. -/
def Interpretation.LiesIn (I : Interpretation) : Prop :=
  ∀ d, I.Holds d → d.LiesIn S

/-- What an argument of an atom mentions is in a scope. -/
def Argument.LiesIn : Argument → Prop
  | .variable _ => True
  | .individual i => S.values (.individual i)
  | .literal l => S.values (.literal l)

/-- What an atom mentions is in a scope. -/
def Atom.LiesIn : Atom → Prop
  | .type c a => S.classes c ∧ a.LiesIn S
  | .fact p s o => S.properties p ∧ s.LiesIn S ∧ o.LiesIn S
  | .same a b | .different a b => a.LiesIn S ∧ b.LiesIn S

/-- What an ontology adds to facts and types of a scope is in the scope. -/
structure World.KeepsTo (w : World) : Prop where
  rules : ∀ r ∈ w.rules, ∀ atom ∈ r.body ++ r.head, atom.LiesIn S
  inverses : ∀ p q, (w.getProperty p).inverseOf = some q → S.properties p ∧ S.properties q
  superproperties : ∀ p, ∀ q ∈ (w.getProperty p).parents, S.properties q
  ends : ∀ p, ∀ e ∈ (w.getProperty p).domain ++ (w.getProperty p).rangeClasses,
    ∀ c ∈ e.namedConjuncts, S.classes c
  superclasses : ∀ c, ∀ d ∈ (w.getClass c).parents, S.classes d
  definitions : ∀ c, ∀ e ∈ (w.getClass c).equivalentTo,
    S.classes c ∧ (∀ d ∈ e.namedConjuncts, S.classes d) ∧
      ∀ i ∈ w.candidates e, S.values (.individual i)

/-- All variables are bound to values of a scope. -/
def Bindings.LieIn (b : Bindings) : Prop :=
  ∀ name v, b.lookup name = some v → S.values v

end LiesIn

variable {S : Scope} {w : World} {I : Interpretation}

/-! ### Growth -/

namespace Interpretation.LiesIn

theorem addFacts (hI : I.LiesIn S) {fs : List Fact} (hfs : ∀ f ∈ fs, (Derived.fact f).LiesIn S) :
    (I.addFacts fs).LiesIn S := by
  rintro (⟨i, c⟩ | f) hd
  · rw [Holds, types_addFacts] at hd
    exact hI (.type i c) hd
  · rcases mem_addFacts.mp hd with hf | hf
    · exact hI (.fact f) hf
    · exact hfs f hf

theorem addTypes (hI : I.LiesIn S) {ts : List (IndividualId × ClassId)}
    (hts : ∀ t ∈ ts, (Derived.type t.1 t.2).LiesIn S) : (I.addTypes ts).LiesIn S := by
  rintro (⟨i, c⟩ | f) hd
  · rcases mem_addTypes.mp hd with ht | ht
    · exact hI (.type i c) ht
    · exact hts (i, c) ht
  · rw [Holds, facts_addTypes] at hd
    exact hI (.fact f) hd

theorem addDerived (hI : I.LiesIn S) {ds : List Derived} (hds : ∀ d ∈ ds, d.LiesIn S) :
    (I.addDerived ds).LiesIn S := by
  intro d hd
  rcases holds_addDerived.mp hd with hd | hd
  · exact hI d hd
  · exact hds d hd

end Interpretation.LiesIn

/-! ### Rules -/

theorem Argument.LiesIn.value {a : Argument} (ha : a.LiesIn S) {b : Bindings} (hb : b.LieIn S)
    {v : Value} (h : a.value? b = some v) : S.values v := by
  cases a with
  | «variable» name => exact hb name v h
  | individual i =>
    rw [← Option.some.inj h]
    exact ha
  | literal l =>
    rw [← Option.some.inj h]
    exact ha

theorem Bindings.LieIn.unify {b b' : Bindings} (hb : b.LieIn S) {a : Argument} {v : Value}
    (hv : S.values v) (h : a.unify b v = some b') : b'.LieIn S := by
  rcases Argument.unify_eq_some_iff.mp h with ⟨-, rfl⟩ | ⟨name, -, -, rfl⟩
  · exact hb
  · intro name' v' h'
    rw [List.lookup_cons] at h'
    split at h'
    · rwa [← Option.some.inj h']
    · exact hb name' v' h'

/-- Matching an atom binds variables to what is known or mentioned. -/
theorem Bindings.LieIn.extensions (hI : I.LiesIn S) {atom : Atom} (hatom : atom.LiesIn S)
    {b b' : Bindings} (hb : b.LieIn S) (h : b' ∈ atom.extensions I b) : b'.LieIn S := by
  cases atom with
  | type c a =>
    rw [Atom.extensions] at h
    split at h
    · split at h
      · rwa [List.mem_singleton.mp h]
      · simp at h
    · simp at h
    · obtain ⟨i, hi, h⟩ := List.mem_filterMap.mp h
      have htype : (Derived.type i c).LiesIn S := hI _ (Interpretation.mem_instancesOf.mp hi)
      exact hb.unify htype.1 h
  | fact p s o =>
    obtain ⟨⟨i, v⟩, hf, h⟩ := List.mem_filterMap.mp h
    have hfact : (Derived.fact ⟨i, p, v⟩).LiesIn S := hI _ (Interpretation.mem_factsOf.mp hf)
    dsimp only at h
    split at h
    · simp at h
    obtain ⟨b₁, hs, ho⟩ := Option.bind_eq_some_iff.mp h
    have hb₁ : b₁.LieIn S := hb.unify hfact.1 hs
    exact hb₁.unify hfact.2.2 ho
  | same x y =>
    rw [Atom.extensions] at h
    split at h
    · split at h
      · rwa [List.mem_singleton.mp h]
      · simp at h
    · next hu _ => exact hb.unify (hatom.1.value hb hu) (Option.mem_toList.mp h)
    · next _ hv => exact hb.unify (hatom.2.value hb hv) (Option.mem_toList.mp h)
    · simp at h
  | different x y =>
    rw [Atom.extensions] at h
    split at h
    · split at h
      · simp at h
      · rwa [List.mem_singleton.mp h]
    · simp at h

theorem Bindings.LieIn.matchAtoms (hI : I.LiesIn S) {atoms : List Atom}
    (hatoms : ∀ atom ∈ atoms, atom.LiesIn S) {b b' : Bindings} (hb : b.LieIn S)
    (h : b' ∈ matchAtoms I atoms b) : b'.LieIn S := by
  induction atoms generalizing b with
  | nil =>
    rw [Ontology.matchAtoms, List.mem_singleton] at h
    rwa [h]
  | cons atom atoms ih =>
    rw [Ontology.matchAtoms, List.mem_flatMap] at h
    obtain ⟨b₁, hb₁, hb'⟩ := h
    have hb₁ : b₁.LieIn S := hb.extensions hI (hatoms atom List.mem_cons_self) hb₁
    exact ih (fun a ha => hatoms a (List.mem_cons_of_mem _ ha)) hb₁ hb'

/-- What an atom of a head adds is about what it mentions and what its variables are bound to. -/
theorem Atom.LiesIn.instantiate {atom : Atom} (hatom : atom.LiesIn S) {b : Bindings}
    (hb : b.LieIn S) {rule : String} {d : Derived}
    (h : atom.instantiate rule b = .ok (some d)) : d.LiesIn S := by
  cases atom with
  | type c a =>
    rw [Atom.instantiate] at h
    split at h
    · next i hi =>
      rw [← Option.some.inj (Except.ok.inj h)]
      exact ⟨hatom.2.value hb hi, hatom.1⟩
    · simp at h
  | fact p s o =>
    rw [Atom.instantiate] at h
    split at h
    · next i v hi hv =>
      rw [← Option.some.inj (Except.ok.inj h)]
      exact ⟨hatom.2.1.value hb hi, hatom.1, hatom.2.2.value hb hv⟩
    · simp at h
  | same x y | different x y =>
    -- such an atom of a head is a test
    rw [Atom.instantiate] at h
    split at h
    · split at h <;> simp at h
    · simp at h

/-- **What a rule derives is about what is known or mentioned in the rule.** -/
theorem Rule.Derives.liesIn {r : Rule} (hr : ∀ atom ∈ r.body ++ r.head, atom.LiesIn S)
    (hI : I.LiesIn S) {d : Derived} (h : r.Derives I d) : d.LiesIn S := by
  obtain ⟨b, hb, atom, hatom, hd⟩ := h
  have hempty : Bindings.LieIn S [] := fun _ _ h => by simp at h
  have hb : Bindings.LieIn S b :=
    hempty.matchAtoms hI (fun a ha => hr a (List.mem_append_left _ ha)) hb
  exact (hr atom (List.mem_append_right _ hatom)).instantiate hb hd

/-! ### Rounds -/

/-- Consequences of a fact of a scope are in the scope. -/
theorem World.KeepsTo.consequencesOf (hw : w.KeepsTo S) (hI : I.LiesIn S) {f g : Fact}
    (hf : f ∈ I.facts) (hg : g ∈ w.consequencesOf I f) : (Derived.fact g).LiesIn S := by
  obtain ⟨s, p, v⟩ := f
  obtain ⟨hs, hp, hv⟩ : (Derived.fact ⟨s, p, v⟩).LiesIn S := hI _ hf
  rcases mem_consequencesOf.mp hg with ⟨o, rfl, hback⟩ | ⟨q, hq, rfl⟩
  · rcases hback with ⟨q, hq, rfl⟩ | ⟨q, hq, rfl⟩ | ⟨-, rfl⟩ | ⟨-, x, hx, rfl⟩
    · exact ⟨hv, (hw.inverses p q hq).2, hs⟩
    · exact ⟨hv, (hw.inverses q p hq).1, hs⟩
    · exact ⟨hv, hp, hs⟩
    · exact ⟨hs, hp, (hI (.fact ⟨o, p, .individual x⟩) hx).2.2⟩
  · exact ⟨hs, hw.superproperties p q hq, hv⟩

/-- Types that follow from facts and types of a scope are in the scope. -/
theorem World.KeepsTo.typeConsequences (hw : w.KeepsTo S) (hI : I.LiesIn S) {i : IndividualId}
    {c : ClassId} (h : (i, c) ∈ w.typeConsequences I) : (Derived.type i c).LiesIn S := by
  rcases mem_typeConsequences.mp h with ⟨⟨s, p, v⟩, hf, -, h⟩ | ⟨j, d, hj, h⟩ | ⟨d, e, he, h⟩
  · obtain ⟨hs, -, hv⟩ : (Derived.fact ⟨s, p, v⟩).LiesIn S := hI _ hf
    rcases mem_typesOfFact.mp h with ⟨rfl, e, he, hc⟩ | ⟨rfl, e, he, hc⟩
    · exact ⟨hs, hw.ends p e (List.mem_append_left _ he) c hc⟩
    · exact ⟨hv, hw.ends p e (List.mem_append_right _ he) c hc⟩
  · have htype : (Derived.type j d).LiesIn S := hI _ hj
    obtain ⟨rfl, hc | ⟨e, he, hc⟩⟩ := mem_typesOfType.mp h
    · exact ⟨htype.1, hw.superclasses d c hc⟩
    · exact ⟨htype.1, (hw.definitions d e he).2.1 c hc⟩
  · obtain ⟨rfl, hi, -, -⟩ := mem_membersOfDefinition.mp h
    exact ⟨(hw.definitions c e he).2.2 i hi, (hw.definitions c e he).1⟩

/-- **A round stays within a scope.** -/
theorem Interpretation.LiesIn.saturationRound (hw : w.KeepsTo S) (hI : I.LiesIn S)
    {K : Interpretation} (h : w.saturationRound I = .ok K) : K.LiesIn S := by
  obtain ⟨ds, hds, rfl⟩ := World.saturationRound_eq_ok h
  -- the facts, what the rules derive from them, and the types that follow from both
  have hfacts : (I.addFacts (w.propertyConsequences I)).LiesIn S := by
    refine hI.addFacts fun g hg => ?_
    obtain ⟨f, hf, -, hg⟩ := World.mem_propertyConsequences.mp hg
    exact hw.consequencesOf hI hf hg
  have hderived : ((I.addFacts (w.propertyConsequences I)).addDerived ds).LiesIn S := by
    refine hfacts.addDerived fun d hd => ?_
    obtain ⟨r, hr, hd⟩ := (World.mem_fireRules hds).mp hd
    exact hd.liesIn (hw.rules r hr) hfacts
  exact hderived.addTypes fun t ht => hw.typeConsequences hderived ht

/-- Saturation stays within a scope. -/
theorem Interpretation.LiesIn.saturateFrom (hw : w.KeepsTo S) (hI : I.LiesIn S)
    {more rounds : Nat} {s : Saturated} (h : w.saturateFrom more rounds I = .ok s) :
    s.interpretation.LiesIn S :=
  World.saturateFrom_invariant (fun _ _ hI hK => hI.saturationRound hw hK) hI h

end Ontology
