import Ontology.Reasoning.Problem

/-!
# Evaluation under more knowledge

An evaluation that knows less leaves more open, but what it settles stays settled: the answer of
`View.member` is monotone in the order of information.

## Main definitions

* `Truth.Approximates`, `Successors.Approximates` — the second one knows at least as much as the
  first one.
* `ClassExpression.namedClasses` — the classes that an expression asks about.
* `View.ApproximatesOn` — the same for views, as far as some classes and properties are concerned.

## Main results

* `View.member_approximates` — **what a view settles about an expression, a view that knows more
  settles alike.**
* `View.member_congr` — only the classes and properties of an expression matter for it.
-/

namespace Ontology

/-! ### Answers -/

namespace Truth

/-- Whatever the first answer settles, the second one settles alike. -/
def Approximates (a b : Truth) : Prop := a ≠ unknown → b = a

@[simp] theorem Approximates.refl (a : Truth) : a.Approximates a := fun _ => rfl

theorem Approximates.antisymm {a b : Truth} (h : a.Approximates b) (h' : b.Approximates a) :
    a = b := by
  by_cases ha : a = unknown
  · by_cases hb : b = unknown
    · rw [ha, hb]
    · exact h' hb
  · exact (h ha).symm

theorem Approximates.not {a b : Truth} (h : a.Approximates b) : a.not.Approximates b.not := by
  intro hn
  have ha : a ≠ unknown := fun ha => hn (by rw [ha]; rfl)
  rw [h ha]

theorem Approximates.and {a a' b b' : Truth} (ha : a.Approximates a') (hb : b.Approximates b') :
    (a.and b).Approximates (a'.and b') := by
  cases a <;> cases a' <;> cases b <;> cases b' <;> simp_all [Approximates, Truth.and]

theorem Approximates.or {a a' b b' : Truth} (ha : a.Approximates a') (hb : b.Approximates b') :
    (a.or b).Approximates (a'.or b') := by
  cases a <;> cases a' <;> cases b <;> cases b' <;> simp_all [Approximates, Truth.or]

@[simp] theorem ofBool_eq_holds {b : Bool} : ofBool b = holds ↔ b = true := by
  cases b <;> simp [ofBool]

@[simp] theorem ofBool_ne_unknown {b : Bool} : ofBool b ≠ unknown := by
  cases b <;> simp [ofBool]

theorem eq_fails_of_ne {a : Truth} (h : a ≠ holds) (h' : a ≠ unknown) : a = fails := by
  cases a <;> simp_all

@[simp] theorem and_eq_holds {a b : Truth} : a.and b = holds ↔ a = holds ∧ b = holds := by
  cases a <;> cases b <;> simp [Truth.and]

@[simp] theorem or_eq_holds {a b : Truth} : a.or b = holds ↔ a = holds ∨ b = holds := by
  cases a <;> cases b <;> simp [Truth.or]

end Truth

/-! ### Values of a relation -/

namespace Successors

theorem exists_eq_holds_iff {s : Successors} {test : Value → Truth} :
    s.exists test = .holds ↔ ∃ x ∈ s.known, test x = .holds := by
  simp only [Successors.exists]
  rw [← List.mem_map]
  split
  · next h => exact iff_of_true rfl h
  · next h =>
    refine iff_of_false ?_ h
    split <;> simp

theorem exists_eq_fails_iff {s : Successors} {test : Value → Truth} :
    s.exists test = .fails ↔ s.isOpen = false ∧ (∀ x ∈ s.known, test x = .fails) ∧
      ∀ i ∈ s.possible, test (.individual i) = .fails := by
  simp only [Successors.exists]
  constructor
  · intro h
    split at h
    · simp at h
    · next hholds =>
      split at h
      · simp at h
      · next hopen =>
        simp only [not_or, List.mem_map, not_exists, not_and, List.any_eq_true, decide_eq_true_eq,
          Bool.not_eq_true, Decidable.not_not] at hholds hopen
        exact ⟨hopen.1, fun x hx => Truth.eq_fails_of_ne (hholds x hx) (hopen.2.1 x hx),
          hopen.2.2⟩
  · rintro ⟨hopen, hknown, hpossible⟩
    have hholds : Truth.holds ∉ s.known.map test := by
      intro h
      obtain ⟨x, hx, hx'⟩ := List.mem_map.mp h
      rw [hknown x hx] at hx'
      simp at hx'
    have hrest : ¬(s.isOpen = true ∨ Truth.unknown ∈ s.known.map test ∨
        (s.possible.any fun i => test (.individual i) ≠ .fails) = true) := by
      rw [hopen]
      rintro (h | h | h)
      · simp at h
      · obtain ⟨x, hx, hx'⟩ := List.mem_map.mp h
        rw [hknown x hx] at hx'
        simp at hx'
      · obtain ⟨i, hi, hi'⟩ := List.any_eq_true.mp h
        rw [decide_eq_true_eq] at hi'
        exact hi' (hpossible i hi)
    rw [if_neg hholds, if_neg hrest]

/-- The second knowledge of the values of a relation extends the first one: no value is lost, and
unless the first one is open each further one was possible before. -/
structure Approximates (s t : Successors) : Prop where
  known : ∀ x ∈ s.known, x ∈ t.known
  isOpen : s.isOpen = false → t.isOpen = false
  known_new : s.isOpen = false → ∀ x ∈ t.known, x ∈ s.known ∨ ∃ i ∈ s.possible, x = .individual i
  possible : s.isOpen = false → ∀ i ∈ t.possible, i ∈ s.possible

theorem Approximates.refl (s : Successors) : s.Approximates s where
  known := fun _ hx => hx
  isOpen := id
  known_new := fun _ _ hx => Or.inl hx
  possible := fun _ _ hi => hi

/-- **More knowledge of the values keeps what is settled about their existence.** -/
theorem Approximates.exists {s t : Successors} (h : s.Approximates t) {test test' : Value → Truth}
    (htest : ∀ x, (test x).Approximates (test' x)) :
    (s.exists test).Approximates (t.exists test') := by
  intro hne
  cases hs : s.exists test with
  | holds =>
    obtain ⟨x, hx, hx'⟩ := exists_eq_holds_iff.mp hs
    refine exists_eq_holds_iff.mpr ⟨x, h.known x hx, ?_⟩
    rw [htest x (by rw [hx']; simp), hx']
  | fails =>
    obtain ⟨hopen, hknown, hpossible⟩ := exists_eq_fails_iff.mp hs
    have hfails : ∀ x, test x = .fails → test' x = .fails := by
      intro x hx
      rw [htest x (by rw [hx]; simp), hx]
    refine exists_eq_fails_iff.mpr ⟨h.isOpen hopen, ?_, ?_⟩
    · intro x hx
      rcases h.known_new hopen x hx with hx | ⟨i, hi, rfl⟩
      · exact hfails x (hknown x hx)
      · exact hfails _ (hpossible i hi)
    · intro i hi
      exact hfails _ (hpossible i (h.possible hopen i hi))
  | unknown => exact absurd hs hne

end Successors

/-! ### Classes that are asked about -/

mutual

/-- The classes that an expression names, at any depth. -/
def ClassExpression.namedClasses : ClassExpression → List ClassId
  | .named c => [c]
  | .and parts => ClassExpression.namedClassesOfParts parts
  | .or parts => ClassExpression.namedClassesOfParts parts
  | .not inner => inner.namedClasses
  | .restriction _ _ filler => filler.namedClasses
  | .thing | .nothing | .oneOf _ => []
termination_by structural e => e

/-- The classes that a list of expressions names. -/
def ClassExpression.namedClassesOfParts : List ClassExpression → List ClassId
  | [] => []
  | part :: rest => part.namedClasses ++ ClassExpression.namedClassesOfParts rest
termination_by structural parts => parts

/-- The classes that a filler names. -/
def Filler.namedClasses : Filler → List ClassId
  | .expression e => e.namedClasses
  | .individual _ | .literal _ | .datatype _ => []
termination_by structural f => f

end

/-! ### Views -/

namespace View

/-- The second view knows at least as much as the first one about the given properties, and the
same about the given classes. -/
structure ApproximatesOn (cs : List ClassId) (rs : List PropertyExpression) (u v : View) :
    Prop where
  hasType : ∀ c ∈ cs, ∀ i, u.hasType i c = v.hasType i c
  successors : ∀ r ∈ rs, ∀ i, (u.successors r i).Approximates (v.successors r i)

theorem ApproximatesOn.mono {cs cs' : List ClassId} {rs rs' : List PropertyExpression}
    {u v : View} (h : ApproximatesOn cs rs u v) (hc : cs' ⊆ cs) (hr : rs' ⊆ rs) :
    ApproximatesOn cs' rs' u v where
  hasType := fun c hc' => h.hasType c (hc hc')
  successors := fun r hr' => h.successors r (hr hr')

mutual

/-- **What a view settles about an expression, a view that knows more settles alike.** -/
theorem member_approximates {u v : View} : ∀ (e : ClassExpression) (i : IndividualId),
    ApproximatesOn e.namedClasses e.readProperties u v →
      (u.member e i).Approximates (v.member e i)
  | .thing, _, _ => by simp [member]
  | .nothing, _, _ => by simp [member]
  | .named c, i, h => by
    rw [member, member, h.hasType c (by simp [ClassExpression.namedClasses]) i]
    exact .refl _
  | .and parts, i, h => memberOfAll_approximates parts i h
  | .or parts, i, h => memberOfAny_approximates parts i h
  | .not inner, i, h => (member_approximates inner i h).not
  | .oneOf _, _, _ => by simp [member]
  | .restriction property quantifier filler, i, h => by
    refine (h.successors property (by simp [ClassExpression.readProperties]) i).exists ?_
    intro x
    cases quantifier with
    | some =>
      exact accepts_approximates filler x
        (h.mono (fun c hc => hc) (fun r hr => List.mem_cons_of_mem _ hr))
    | value => exact .refl _
termination_by structural e => e

theorem memberOfAll_approximates {u v : View} :
    ∀ (parts : List ClassExpression) (i : IndividualId),
      ApproximatesOn (ClassExpression.namedClassesOfParts parts)
          (ClassExpression.readPropertiesOfParts parts) u v →
        (u.memberOfAll parts i).Approximates (v.memberOfAll parts i)
  | [], _, _ => by simp [memberOfAll]
  | part :: rest, i, h => by
    rw [ClassExpression.namedClassesOfParts, ClassExpression.readPropertiesOfParts] at h
    exact (member_approximates part i
        (h.mono (List.subset_append_left _ _) (List.subset_append_left _ _))).and
      (memberOfAll_approximates rest i
        (h.mono (List.subset_append_right _ _) (List.subset_append_right _ _)))
termination_by structural parts => parts

theorem memberOfAny_approximates {u v : View} :
    ∀ (parts : List ClassExpression) (i : IndividualId),
      ApproximatesOn (ClassExpression.namedClassesOfParts parts)
          (ClassExpression.readPropertiesOfParts parts) u v →
        (u.memberOfAny parts i).Approximates (v.memberOfAny parts i)
  | [], _, _ => by simp [memberOfAny]
  | part :: rest, i, h => by
    rw [ClassExpression.namedClassesOfParts, ClassExpression.readPropertiesOfParts] at h
    exact (member_approximates part i
        (h.mono (List.subset_append_left _ _) (List.subset_append_left _ _))).or
      (memberOfAny_approximates rest i
        (h.mono (List.subset_append_right _ _) (List.subset_append_right _ _)))
termination_by structural parts => parts

theorem accepts_approximates {u v : View} : ∀ (f : Filler) (x : Value),
    ApproximatesOn f.namedClasses f.readProperties u v →
      (u.accepts f x).Approximates (v.accepts f x)
  | .expression e, .individual i, h => member_approximates e i h
  | .expression _, .expression _, _ => .refl _
  | .expression _, .literal _, _ => .refl _
  | .individual _, _, _ => .refl _
  | .literal _, _, _ => .refl _
  | .datatype _, _, _ => .refl _
termination_by structural f => f

end

/-- Only the classes and the properties of an expression matter for its members. -/
theorem member_congr {u v : View} {e : ClassExpression} {i : IndividualId}
    (hc : ∀ c ∈ e.namedClasses, ∀ i, u.hasType i c = v.hasType i c)
    (hr : ∀ r ∈ e.readProperties, ∀ i, u.successors r i = v.successors r i) :
    u.member e i = v.member e i := by
  have huv : ApproximatesOn e.namedClasses e.readProperties u v :=
    ⟨hc, fun r hr' i => hr r hr' i ▸ .refl _⟩
  have hvu : ApproximatesOn e.namedClasses e.readProperties v u :=
    ⟨fun c hc' i => (hc c hc' i).symm, fun r hr' i => hr r hr' i ▸ .refl _⟩
  exact (member_approximates e i huv).antisymm (member_approximates e i hvu)

end View

end Ontology
