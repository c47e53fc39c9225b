import Ontology.Proofs.Refinement
import Ontology.Proofs.Repetition

/-!
# Definitions stay supported

Saturation puts an individual into a class when it belongs to a definition of the class, as far as
is known at that time.  Classes gain members later on, and a complement can fail then although it
held before.  Nothing else can happen to a definition: the values of a relation that was settled
stay as they are, so that only new members of classes below an odd number of complements can
unsettle it.

## Main definitions

* `ClassExpression.unsettling` — the classes whose new members can unsettle an answer.
* `Truth.Keeps` — an answer is kept.
* `View.LearnsInto` — what changes about a view while saturation goes on.
* `World.saturateTraced` — saturation with a record of the states in which definitions were asked.

## Main results

* `View.member_keeps` — **an answer is kept if no class that can unsettle it gains a member.**
* `World.IsSaturated.assertedSuccessors_approximates` — what was settled about the values of a
  relation is settled alike in the end.
* `World.saturateTraced_fst` — the record does not change saturation.
* `World.supported_of_saturate` — **what supports a type at first supports it in the end, if no such
  class has gained a member.**
* `World.unsupported_stranger` — an individual that ends up in a class and in its complement.
-/

namespace Ontology

/-! ### Classes that unsettle an answer -/

mutual

/-- The classes whose new members can unsettle the answer that an individual belongs to an
expression, or the answer that it does not. -/
def ClassExpression.unsettling : ClassExpression → Bool → List ClassId
  | .named _, true => []
  | .named c, false => [c]
  | .and parts, answer => ClassExpression.unsettlingOfParts parts answer
  | .or parts, answer => ClassExpression.unsettlingOfParts parts answer
  | .not inner, answer => inner.unsettling !answer
  | .restriction _ .some filler, answer => filler.unsettling answer
  | .restriction _ .value _, _ => []
  | .thing, _ | .nothing, _ | .oneOf _, _ => []
termination_by structural e => e

/-- The same for a list of expressions. -/
def ClassExpression.unsettlingOfParts : List ClassExpression → Bool → List ClassId
  | [], _ => []
  | part :: rest, answer =>
    part.unsettling answer ++ ClassExpression.unsettlingOfParts rest answer
termination_by structural parts => parts

/-- The same for a filler. -/
def Filler.unsettling : Filler → Bool → List ClassId
  | .expression e, answer => e.unsettling answer
  | .individual _, _ | .literal _, _ | .datatype _, _ => []
termination_by structural f => f

end

mutual

/-- Nothing unsettles that an individual belongs to an expression without complements. -/
theorem ClassExpression.unsettling_of_isComplementFree :
    ∀ e : ClassExpression, e.isComplementFree = true → e.unsettling true = []
  | .thing, _ | .nothing, _ | .named _, _ | .oneOf _, _ => rfl
  | .and parts, h => ClassExpression.unsettlingOfParts_of_isComplementFree parts h
  | .or parts, h => ClassExpression.unsettlingOfParts_of_isComplementFree parts h
  | .not _, h => by simp [ClassExpression.isComplementFree] at h
  | .restriction _ .some filler, h => Filler.unsettling_of_isComplementFree filler h
  | .restriction _ .value _, _ => rfl
termination_by structural e => e

theorem ClassExpression.unsettlingOfParts_of_isComplementFree :
    ∀ parts : List ClassExpression, ClassExpression.arePartsComplementFree parts = true →
      ClassExpression.unsettlingOfParts parts true = []
  | [], _ => rfl
  | part :: rest, h => by
    rw [ClassExpression.arePartsComplementFree, Bool.and_eq_true] at h
    rw [ClassExpression.unsettlingOfParts, ClassExpression.unsettling_of_isComplementFree part h.1,
      ClassExpression.unsettlingOfParts_of_isComplementFree rest h.2, List.nil_append]
termination_by structural parts => parts

theorem Filler.unsettling_of_isComplementFree :
    ∀ f : Filler, f.isComplementFree = true → f.unsettling true = []
  | .expression e, h => ClassExpression.unsettling_of_isComplementFree e h
  | .individual _, _ | .literal _, _ | .datatype _, _ => rfl
termination_by structural f => f

end

/-! ### Answers that are kept -/

namespace Truth

variable {answer : Bool} {a a' b b' : Truth}

/-- An answer is kept. -/
def Keeps (answer : Bool) (a a' : Truth) : Prop :=
  a = ofBool answer → a' = ofBool answer

theorem Keeps.refl (answer : Bool) (a : Truth) : Keeps answer a a := id

theorem Approximates.keeps (h : a.Approximates a') : Keeps answer a a' := by
  intro ha
  rw [h (by simp [ha]), ha]

theorem Keeps.not (h : Keeps (!answer) a a') : Keeps answer a.not a'.not := by
  cases answer <;> cases a <;> cases a' <;> simp_all [Keeps, ofBool, Truth.not]

theorem Keeps.and (ha : Keeps answer a a') (hb : Keeps answer b b') :
    Keeps answer (a.and b) (a'.and b') := by
  cases answer <;> cases a <;> cases a' <;> cases b <;> cases b' <;>
    simp_all [Keeps, ofBool, Truth.and]

theorem Keeps.or (ha : Keeps answer a a') (hb : Keeps answer b b') :
    Keeps answer (a.or b) (a'.or b') := by
  cases answer <;> cases a <;> cases a' <;> cases b <;> cases b' <;>
    simp_all [Keeps, ofBool, Truth.or]

end Truth

/-- More knowledge of the values keeps the answer whether one of them passes a test. -/
theorem Successors.Approximates.keeps {s t : Successors} (h : s.Approximates t) {answer : Bool}
    {test test' : Value → Truth} (htest : ∀ x, (test x).Keeps answer (test' x)) :
    (s.exists test).Keeps answer (t.exists test') := by
  cases answer with
  | true =>
    intro hs
    obtain ⟨x, hx, hpass⟩ := exists_eq_holds_iff.mp hs
    exact exists_eq_holds_iff.mpr ⟨x, h.known x hx, htest x hpass⟩
  | false =>
    intro hs
    obtain ⟨hopen, hknown, hpossible⟩ := exists_eq_fails_iff.mp hs
    refine exists_eq_fails_iff.mpr ⟨h.isOpen hopen, fun x hx => ?_, fun i hi => ?_⟩
    · rcases h.known_new hopen x hx with hx | ⟨i, hi, rfl⟩
      · exact htest x (hknown x hx)
      · exact htest _ (hpossible i hi)
    · exact htest _ (hpossible i (h.possible hopen i hi))

namespace View

/-- More is known of the classes and of the values of properties. -/
structure LearnsInto (u v : View) : Prop where
  hasType : ∀ i c, u.hasType i c = true → v.hasType i c = true
  successors : ∀ r i, (u.successors r i).Approximates (v.successors r i)

/-- The classes of a list have no new members. -/
def SameMembers (cs : List ClassId) (u v : View) : Prop :=
  ∀ c ∈ cs, ∀ i, v.hasType i c = true → u.hasType i c = true

theorem SameMembers.mono {cs cs' : List ClassId} {u v : View} (h : SameMembers cs u v)
    (hsub : cs' ⊆ cs) : SameMembers cs' u v :=
  fun c hc => h c (hsub hc)

mutual

/-- **An answer is kept if no class that can unsettle it gains a member.** -/
theorem member_keeps {u v : View} (h : u.LearnsInto v) :
    ∀ (e : ClassExpression) (answer : Bool) (i : IndividualId),
      SameMembers (e.unsettling answer) u v →
        (u.member e i).Keeps answer (v.member e i)
  | .thing, _, _, _ => .refl _ _
  | .nothing, _, _, _ => .refl _ _
  | .oneOf _, _, _, _ => .refl _ _
  | .named c, true, i, _ => by
    intro hm
    rw [member, Truth.ofBool_eq_holds.mpr rfl, Truth.ofBool_eq_holds] at hm
    exact Truth.ofBool_eq_holds.mpr (h.hasType i c hm)
  | .named c, false, i, hsame => by
    intro hm
    have hnone : u.hasType i c = false := by
      cases hu : u.hasType i c with
      | false => rfl
      | true =>
        rw [member, hu] at hm
        cases hm
    have hnone' : v.hasType i c = false := by
      cases hv : v.hasType i c with
      | false => rfl
      | true =>
        rw [hsame c (List.mem_singleton_self c) i hv] at hnone
        cases hnone
    rw [member, hnone']
  | .and parts, answer, i, hsame => memberOfAll_keeps h parts answer i hsame
  | .or parts, answer, i, hsame => memberOfAny_keeps h parts answer i hsame
  | .not inner, answer, i, hsame => (member_keeps h inner (!answer) i hsame).not
  | .restriction property .some filler, answer, i, hsame =>
    (h.successors property i).keeps fun x => accepts_keeps h filler answer x hsame
  | .restriction property .value _, _, i, _ => (h.successors property i).keeps fun _ => .refl _ _
termination_by structural e => e

theorem memberOfAll_keeps {u v : View} (h : u.LearnsInto v) :
    ∀ (parts : List ClassExpression) (answer : Bool) (i : IndividualId),
      SameMembers (ClassExpression.unsettlingOfParts parts answer) u v →
        (u.memberOfAll parts i).Keeps answer (v.memberOfAll parts i)
  | [], _, _, _ => .refl _ _
  | part :: rest, answer, i, hsame =>
    (member_keeps h part answer i (hsame.mono (List.subset_append_left _ _))).and
      (memberOfAll_keeps h rest answer i (hsame.mono (List.subset_append_right _ _)))
termination_by structural parts => parts

theorem memberOfAny_keeps {u v : View} (h : u.LearnsInto v) :
    ∀ (parts : List ClassExpression) (answer : Bool) (i : IndividualId),
      SameMembers (ClassExpression.unsettlingOfParts parts answer) u v →
        (u.memberOfAny parts i).Keeps answer (v.memberOfAny parts i)
  | [], _, _, _ => .refl _ _
  | part :: rest, answer, i, hsame =>
    (member_keeps h part answer i (hsame.mono (List.subset_append_left _ _))).or
      (memberOfAny_keeps h rest answer i (hsame.mono (List.subset_append_right _ _)))
termination_by structural parts => parts

theorem accepts_keeps {u v : View} (h : u.LearnsInto v) :
    ∀ (f : Filler) (answer : Bool) (x : Value), SameMembers (f.unsettling answer) u v →
      (u.accepts f x).Keeps answer (v.accepts f x)
  | .expression e, answer, .individual i, hsame => member_keeps h e answer i hsame
  | .expression _, _, .expression _, _ => .refl _ _
  | .expression _, _, .literal _, _ => .refl _ _
  | .individual _, _, _, _ => .refl _ _
  | .literal _, _, _, _ => .refl _ _
  | .datatype _, _, _, _ => .refl _ _
termination_by structural f => f

end

end View

/-! ### Values of relations -/

namespace World

variable {w : World} {I J K : Interpretation}

theorem isComplete_mono (hKJ : K ≤ J) {r : PropertyExpression} {i : IndividualId}
    (h : w.isComplete K r i = true) : w.isComplete J r i = true := by
  obtain ⟨p, hp, hclosed⟩ := List.any_eq_true.mp h
  obtain ⟨v, hv, hnothing⟩ := List.any_eq_true.mp hclosed
  refine List.any_eq_true.mpr ⟨p, hp, List.any_eq_true.mpr ⟨v, ?_, hnothing⟩⟩
  exact Interpretation.mem_values.mpr (hKJ.1 (Interpretation.mem_values.mp hv))

/-- A property that stands for a relation is the property of that or an inverse of it. -/
theorem baseRelation_cases (w : World) (p : PropertyId) : w.baseRelation p = .named p ∨
    ∃ q, (w.getProperty p).inverseOf = some q ∧ w.baseRelation p = .inverse q := by
  rw [baseRelation]
  cases (w.getProperty p).inverseOf with
  | none => exact .inl rfl
  | some q =>
    dsimp only
    split
    · exact .inl rfl
    · exact .inr ⟨q, rfl, rfl⟩

/-- Where a relation is marked as complete there is no value. -/
theorem IsSaturated.related_of_isComplete (hJ : w.IsSaturated J) {r : PropertyExpression}
    {i : IndividualId} (h : w.isComplete J r i = true) : J.related r i = [] := by
  obtain ⟨p, hp, hclosed⟩ := List.any_eq_true.mp h
  obtain ⟨v, hv, hnothing⟩ := List.any_eq_true.mp hclosed
  have hbase : w.baseRelation p = r := by simpa [aliases] using (List.mem_filter.mp hp).2
  rw [Interpretation.mem_values] at hv
  rw [List.eq_nil_iff_forall_not_mem]
  intro x hx
  -- a value of the relation is one of the marked property
  have hmarked : ∃ u, ⟨i, p, u⟩ ∈ J.facts ∧ u.isNothing = false := by
    rcases w.baseRelation_cases p with hp | ⟨q, hq, hp⟩
    · rw [← hbase, hp, Interpretation.mem_related_named] at hx
      exact ⟨x, hx⟩
    · rw [← hbase, hp, Interpretation.mem_related_inverse] at hx
      obtain ⟨s, hs, -⟩ := hx
      exact ⟨.individual s, hJ.isClosed.declared s q i p hs hq, rfl⟩
  obtain ⟨u, hu, hun⟩ := hmarked
  rw [hJ.noClash.marked i p v u hv hu hnothing] at hun
  cases hun

/-- A functional relation has one value. -/
theorem NoClash.related_eq (hJ : w.NoClash J) {r : PropertyExpression} {i : IndividualId}
    (hr : w.isFunctional r = true) {x y : Value} (hx : x ∈ J.related r i) (hy : y ∈ J.related r i) :
    x = y := by
  cases r with
  | named p =>
    rw [Interpretation.mem_related_named] at hx hy
    exact hJ.functional i p x y hr hx.1 hy.1 hx.2 hy.2
  | inverse p =>
    rw [Interpretation.mem_related_inverse] at hx hy
    obtain ⟨s, hs, rfl⟩ := hx
    obtain ⟨t, ht, rfl⟩ := hy
    rw [hJ.inverseFunctional s t p i hr hs ht]

/-- The values of a relation are settled by a marker, or by the value of a functional relation. -/
theorem isOpen_assertedSuccessors {r : PropertyExpression} {i : IndividualId} :
    (w.assertedSuccessors I r i).isOpen = false ↔
      w.isComplete I r i = true ∨ w.isFunctional r = true ∧ I.related r i ≠ [] := by
  simp [assertedSuccessors, or_iff_not_imp_left]

/-- **What was settled about the values of a relation is settled alike in the end.** -/
theorem IsSaturated.assertedSuccessors_approximates (hJ : w.IsSaturated J) (hKJ : K ≤ J)
    (r : PropertyExpression) (i : IndividualId) :
    (w.assertedSuccessors K r i).Approximates (w.assertedSuccessors J r i) := by
  constructor
  · intro x hx
    exact Interpretation.mem_related_mono hKJ hx
  · intro h
    rw [isOpen_assertedSuccessors] at h ⊢
    refine h.imp (isComplete_mono hKJ) (And.imp_right fun hrelated => ?_)
    obtain ⟨x, hx⟩ := List.exists_mem_of_ne_nil _ hrelated
    exact List.ne_nil_of_mem (Interpretation.mem_related_mono hKJ hx)
  · intro h x hx
    have hx : x ∈ J.related r i := hx
    left
    rcases isOpen_assertedSuccessors.mp h with hcomplete | ⟨hfunctional, hrelated⟩
    · -- a marker leaves no value to come
      rw [hJ.related_of_isComplete (isComplete_mono hKJ hcomplete)] at hx
      cases hx
    · -- the only value was there before
      obtain ⟨y, hy⟩ := List.exists_mem_of_ne_nil _ hrelated
      have hyJ : y ∈ J.related r i := Interpretation.mem_related_mono hKJ hy
      rw [hJ.noClash.related_eq hfunctional hx hyJ]
      exact hy
  · intro _ x hx
    exact hx

/-- From any state on saturation learns more. -/
theorem IsSaturated.learnsInto (hJ : w.IsSaturated J) (hKJ : K ≤ J) :
    (w.assertedView K).LearnsInto (w.assertedView J) where
  hasType _ _ h := Interpretation.hasType_iff.mpr (hKJ.2 (Interpretation.hasType_iff.mp h))
  successors r i := hJ.assertedSuccessors_approximates hKJ (w.relation r) i

/-! ### Saturation with a record -/

/-- The state of a round in which definitions are asked: facts and rules are behind, the types are
still to come. -/
def definitionState (w : World) (I : Interpretation) : Except Inconsistency Interpretation := do
  let I := I.addFacts (w.propertyConsequences I)
  return I.addDerived (← w.fireRules I)

/-- A round adds what follows for types from the state in which definitions are asked. -/
theorem saturationRound_eq (w : World) (I : Interpretation) :
    w.saturationRound I =
      (w.definitionState I).map fun K => K.addTypes (w.typeConsequences K) := by
  rw [saturationRound, definitionState]
  cases w.fireRules (I.addFacts (w.propertyConsequences I)) <;> rfl

/-- Rounds as in `saturateFrom`, with a record of the states in which definitions were asked. -/
def saturateFromTraced (w : World) (more rounds : Nat) (I : Interpretation) :
    Except Inconsistency (Saturated × List Interpretation) := do
  let state ← w.definitionState I
  let next := state.addTypes (w.typeConsequences state)
  if next.size = I.size then return (⟨next, rounds + 1, true⟩, [state])
  else
    match more with
    | 0 => return (⟨next, rounds + 1, false⟩, [state])
    | more + 1 =>
      let (s, later) ← w.saturateFromTraced more (rounds + 1) next
      return (s, state :: later)

/-- Saturation with a record of the states in which definitions were asked. -/
def saturateTraced (w : World) (maxRounds : Nat) (I : Interpretation) :
    Except Inconsistency (Saturated × List Interpretation) := do
  let (result, record) ← w.saturateFromTraced (maxRounds - 1) 0 I
  match w.clash? result.interpretation with
  | some e => .error e
  | none => return (result, record)

theorem saturateFromTraced_fst (w : World) (more rounds : Nat) (I : Interpretation) :
    (w.saturateFromTraced more rounds I).map Prod.fst = w.saturateFrom more rounds I := by
  induction more generalizing rounds I with
  | zero =>
    rw [saturateFromTraced, saturateFrom, saturationRound_eq]
    cases w.definitionState I with
    | error e => rfl
    | ok state =>
      simp only [bind, Except.bind, Except.map]
      by_cases hsize : (state.addTypes (w.typeConsequences state)).size = I.size
      · rw [if_pos hsize, if_pos hsize]
        rfl
      · rw [if_neg hsize, if_neg hsize]
        rfl
  | succ more ih =>
    rw [saturateFromTraced, saturateFrom, saturationRound_eq]
    cases w.definitionState I with
    | error e => rfl
    | ok state =>
      simp only [bind, Except.bind, Except.map]
      by_cases hsize : (state.addTypes (w.typeConsequences state)).size = I.size
      · rw [if_pos hsize, if_pos hsize]
        rfl
      · rw [if_neg hsize, if_neg hsize, ← ih]
        cases w.saturateFromTraced more (rounds + 1) _ <;> rfl

/-- The record does not change saturation. -/
theorem saturateTraced_fst (w : World) (n : Nat) (I : Interpretation) :
    (w.saturateTraced n I).map Prod.fst = w.saturate n I := by
  rw [saturateTraced, saturate, ← saturateFromTraced_fst]
  cases w.saturateFromTraced (n - 1) 0 I with
  | error e => rfl
  | ok result =>
    simp only [bind, Except.bind, Except.map]
    cases w.clash? result.1.interpretation <;> rfl

/-- The first of several rounds, and what it leaves to the others. -/
theorem saturateFromTraced_eq_ok {more rounds : Nat} {s : Saturated} {record : List Interpretation}
    (h : w.saturateFromTraced more rounds I = .ok (s, record)) :
    ∃ state, (record = [state] ∧ s.rounds = rounds + 1 ∧
        s.interpretation = state.addTypes (w.typeConsequences state)) ∨
      ∃ fewer later, more = fewer + 1 ∧ record = state :: later ∧
        w.saturateFromTraced fewer (rounds + 1) (state.addTypes (w.typeConsequences state))
          = .ok (s, later) := by
  rw [saturateFromTraced.eq_def] at h
  obtain ⟨state, -, h⟩ := exists_of_bind_eq_ok h
  refine ⟨state, ?_⟩
  dsimp only at h
  split at h
  · cases h
    exact .inl ⟨rfl, rfl, rfl⟩
  · cases more with
    | zero =>
      cases h
      exact .inl ⟨rfl, rfl, rfl⟩
    | succ fewer =>
      obtain ⟨⟨s', later⟩, hlater, h⟩ := exists_of_bind_eq_ok h
      cases h
      exact .inr ⟨fewer, later, rfl, rfl, hlater⟩

/-- There is a state for each round. -/
theorem length_saturateFromTraced {more rounds : Nat} {s : Saturated}
    {record : List Interpretation} (h : w.saturateFromTraced more rounds I = .ok (s, record)) :
    rounds + record.length = s.rounds := by
  induction more using Nat.strongRecOn generalizing rounds I record with
  | ind more ih =>
    obtain ⟨state, ⟨rfl, hrounds, -⟩ | ⟨fewer, later, rfl, rfl, hlater⟩⟩ :=
      saturateFromTraced_eq_ok h
    · rw [hrounds, List.length_singleton]
    · rw [← ih fewer (Nat.lt_succ_self _) hlater, List.length_cons]
      omega

/-- What is added for types in one round is there in the end. -/
theorem saturateFromTraced_le {more rounds : Nat} {s : Saturated} {record : List Interpretation}
    (h : w.saturateFromTraced more rounds I = .ok (s, record)) {K : Interpretation}
    (hK : K ∈ record) : K.addTypes (w.typeConsequences K) ≤ s.interpretation := by
  induction more using Nat.strongRecOn generalizing rounds I record with
  | ind more ih =>
    obtain ⟨state, ⟨rfl, -, hfinal⟩ | ⟨fewer, later, rfl, rfl, hlater⟩⟩ :=
      saturateFromTraced_eq_ok h
    · rw [List.mem_singleton.mp hK, hfinal]
    · rcases List.mem_cons.mp hK with rfl | hK
      · have hrest :=
          saturateFromTraced_fst w fewer (rounds + 1) (K.addTypes (w.typeConsequences K))
        rw [hlater] at hrest
        exact (extends_saturateFrom hrest.symm).le
      · exact ih fewer (Nat.lt_succ_self _) hlater hK

/-- A run has a record. -/
theorem exists_saturateTraced {n : Nat} {s : Saturated} (h : w.saturate n I = .ok s) :
    ∃ record, w.saturateTraced n I = .ok (s, record) := by
  rw [← saturateTraced_fst] at h
  cases hrun : w.saturateTraced n I with
  | error e =>
    rw [hrun] at h
    cases h
  | ok result =>
    rw [hrun] at h
    cases h
    exact ⟨result.2, rfl⟩

theorem saturateTraced_eq_ok {n : Nat} {s : Saturated} {record : List Interpretation}
    (h : w.saturateTraced n I = .ok (s, record)) :
    w.saturateFromTraced (n - 1) 0 I = .ok (s, record) := by
  rw [saturateTraced] at h
  obtain ⟨⟨s', record'⟩, hrun, h⟩ := exists_of_bind_eq_ok h
  dsimp only at h
  split at h
  · cases h
  · cases h
    exact hrun

/-- **What supports a type at first supports it in the end, if no class that can unsettle it gains a
member.**  Let saturation end with a round that adds nothing, and let one of its rounds put an
individual into a class because it belongs to a definition.  It still belongs to that in the end,
unless a class below an odd number of complements has gained a member since; so it does if there are
no complements.  If the definition is the complement of a class, the individual was no member of
that then, and belongs to the definition in the end if and only if it has not become one since. -/
theorem supported_of_saturate {n : Nat} {s : Saturated} (h : w.saturate n I = .ok s)
    (hs : s.isSettled = true) :
    ∃ record, w.saturateTraced n I = .ok (s, record) ∧ record.length = s.rounds ∧
      ∀ K ∈ record, ∀ c, ∀ e ∈ (w.getClass c).equivalentTo, ∀ i,
        (i, c) ∈ w.membersOfDefinition K c e →
        let final := s.interpretation
        (i, c) ∈ final.types ∧
          ((∀ d ∈ e.unsettling true, ∀ j, (j, d) ∈ final.types → (j, d) ∈ K.types) →
            (w.assertedView final).member e i = .holds) ∧
          (e.isComplementFree = true → (w.assertedView final).member e i = .holds) ∧
          ∀ a, e = .not (.named a) → (i, a) ∉ K.types ∧
            ((w.assertedView final).member e i = .holds ↔ (i, a) ∉ final.types) := by
  obtain ⟨record, hrecord⟩ := exists_saturateTraced h
  have hrun := saturateTraced_eq_ok hrecord
  refine ⟨record, hrecord, ?_, ?_⟩
  · rw [← length_saturateFromTraced hrun, Nat.zero_add]
  intro K hK c e he i hi final
  have hround : K.addTypes (w.typeConsequences K) ≤ final := saturateFromTraced_le hrun hK
  have hKfinal : K ≤ final := le_trans (Interpretation.extends_addTypes _ _).le hround
  have hsaturated : w.IsSaturated final := isSaturated_of_saturate h hs
  have hmember : (w.assertedView K).member e i = .holds := (mem_membersOfDefinition.mp hi).2.2.2
  have hsupported : (∀ d ∈ e.unsettling true, ∀ j, (j, d) ∈ final.types → (j, d) ∈ K.types) →
      (w.assertedView final).member e i = .holds := by
    intro hsame
    refine View.member_keeps (hsaturated.learnsInto hKfinal) e true i ?_ hmember
    intro d hd j hj
    exact Interpretation.hasType_iff.mpr (hsame d hd j (Interpretation.hasType_iff.mp hj))
  have htype : (i, c) ∈ final.types := by
    refine hround.2 (Interpretation.mem_addTypes.mpr (.inr ?_))
    exact mem_typeConsequences.mpr (.inr (.inr ⟨c, e, he, hi⟩))
  refine ⟨htype, hsupported, fun hfree => hsupported ?_, ?_⟩
  · rw [ClassExpression.unsettling_of_isComplementFree e hfree]
    simp
  · rintro a rfl
    have hnot {L : Interpretation} :
        (w.assertedView L).member (.not (.named a)) i = .holds ↔ (i, a) ∉ L.types := by
      rw [View.member, View.member, ← Interpretation.hasType_iff]
      cases hL : L.hasType i a <;> simp [assertedView, hL, Truth.ofBool, Truth.not]
    exact ⟨hnot.mp hmember, hnot⟩

/-! ### Strangers -/

/-- Whoever is no guest is a stranger.  Someone has a name, and those who have one may belong to
some class. -/
def strangers (named : List ClassExpression) : World where
  iri := ""
  classes := #[{ name := "Guest" }, { name := "Stranger", equivalentTo := [.not (.named ⟨0⟩)] }]
  properties := #[{ name := "is_called", kind := .data, domain := named }]
  individuals := #[{
    name := "x"
    isA := [.thing]
    facts := Assertions.push {} ⟨0⟩ (.literal (.bool true)) }]

/-- What is known at first. -/
def called : Interpretation where
  facts := [⟨⟨0⟩, ⟨0⟩, .literal (.bool true)⟩]

/-- A stranger who does not become a guest is supported. -/
theorem supported_stranger :
    (⟨0⟩, ⟨1⟩) ∈ (strangers []).membersOfDefinition called ⟨1⟩ (.not (.named ⟨0⟩)) ∧
      ((strangers []).assertedView { called with types := [(⟨0⟩, ⟨1⟩)] }).member
        (.not (.named ⟨0⟩)) ⟨0⟩ = .holds := by
  have hrun : (strangers []).saturateTraced 64 called =
      .ok (⟨{ called with types := [(⟨0⟩, ⟨1⟩)] }, 2, true⟩,
        [called, { called with types := [(⟨0⟩, ⟨1⟩)] }]) := by
    decide +kernel
  have hsaturate : (strangers []).saturate 64 called =
      .ok ⟨{ called with types := [(⟨0⟩, ⟨1⟩)] }, 2, true⟩ := by
    rw [← saturateTraced_fst, hrun]
    rfl
  obtain ⟨record, hrecord, -, hsupported⟩ := supported_of_saturate hsaturate rfl
  rw [hrun, Except.ok.injEq, Prod.mk.injEq] at hrecord
  rw [← hrecord.2] at hsupported
  have htyped : (⟨0⟩, ⟨1⟩) ∈
      (strangers []).membersOfDefinition called ⟨1⟩ (.not (.named ⟨0⟩)) := by decide +kernel
  obtain ⟨-, -, -, hnot⟩ :=
    hsupported called List.mem_cons_self ⟨1⟩ (.not (.named ⟨0⟩)) (by decide) ⟨0⟩ htyped
  exact ⟨htyped, (hnot ⟨0⟩ rfl).2.mpr (by decide)⟩

/-- **A stranger who becomes a guest stays a stranger.**  If those who have a name are guests, the
first round makes someone both, as the definition is asked before the guest is known. -/
theorem unsupported_stranger :
    (strangers [.named ⟨0⟩]).interpretation = called ∧
      (strangers [.named ⟨0⟩]).saturateTraced 64 called =
        .ok (⟨{ called with types := [(⟨0⟩, ⟨0⟩), (⟨0⟩, ⟨1⟩)] }, 2, true⟩,
          [called, { called with types := [(⟨0⟩, ⟨0⟩), (⟨0⟩, ⟨1⟩)] }]) ∧
      .not (.named ⟨0⟩) ∈ ((strangers [.named ⟨0⟩]).getClass ⟨1⟩).equivalentTo ∧
      (⟨0⟩, ⟨1⟩) ∈
        (strangers [.named ⟨0⟩]).membersOfDefinition called ⟨1⟩ (.not (.named ⟨0⟩)) ∧
      ((strangers [.named ⟨0⟩]).assertedView
        { called with types := [(⟨0⟩, ⟨0⟩), (⟨0⟩, ⟨1⟩)] }).member (.not (.named ⟨0⟩)) ⟨0⟩
          = .fails :=
  ⟨by decide +kernel, by decide +kernel, by decide, by decide +kernel, by decide +kernel⟩

end World

end Ontology
