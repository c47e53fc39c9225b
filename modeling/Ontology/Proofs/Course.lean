import Ontology.Proofs.Closure
import Ontology.Proofs.Enumeration
import Ontology.Reasoning.FiniteModel

/-!
# The course of reasoning

`World.reason` allows itself a number of searches.  It never needs all of them: a search that is
followed by another one relates two individuals in a way that was not known before.  So reasoning
is what saturations and searches in turn lead to, however many there are.

## Main definitions

* `World.links`, `World.missingLinks` — the facts that relate two individuals, and those that are
  not known.
* `World.EndsIn` — what searches and saturations in turn lead to.
* `World.Course` — reasoning as a whole, with its saturations.

## Main results

* `World.entailed_subset_links` — what a search commits to relates two individuals.
* `World.EndsIn.invariant` — what every search with the saturation behind it preserves.
* `World.reason_eq_ok_iff` — **reasoning follows its course to the end.**
* `World.Course.unique` — there is one course.
* `World.Course.exists_saturated` — what is known in the end is what some saturation arrived at.
* `World.infer_eq_ok` — what a report says.
-/

namespace Ontology

namespace Interpretation

/-- Growth adds no entry if and only if everything is known. -/
theorem size_addFacts_eq_iff {I : Interpretation} {fs : List Fact} :
    (I.addFacts fs).size = I.size ↔ fs ⊆ I.facts := by
  constructor
  · intro h f hf
    rw [← (extends_addFacts I fs).eq_of_size h, mem_addFacts]
    exact Or.inr hf
  · intro h
    rw [addFacts_eq_self h]

end Interpretation

namespace SearchProblem

/-- A search that succeeds has a solution. -/
theorem exists_isSolution_of_solve {p : SearchProblem} (hp : p.WellFormed) {maxModels : Nat}
    {o : Outcome} (h : p.solve maxModels = .ok o) : ∃ m, p.IsSolution m := by
  rcases solve_eq hp maxModels with ⟨e, he, -⟩ | ⟨entailed, -, hm, -⟩
  · rw [h] at he
    simp at he
  · exact hm

/-- A search that is stopped early commits to nothing. -/
theorem entailed_eq_nil {p : SearchProblem} (hp : p.WellFormed) {maxModels : Nat} {o : Outcome}
    (h : p.solve maxModels = .ok o) (hcapped : o.isCapped = true) : o.entailed = [] := by
  rcases solve_eq hp maxModels with ⟨e, he, -⟩ | ⟨entailed, hok, -, hfull, -⟩
  · rw [h] at he
    simp at he
  · rw [h, Except.ok.injEq] at hok
    rw [hok] at hcapped ⊢
    exact hfull (of_decide_eq_true hcapped)

end SearchProblem

namespace World

variable {w : World} {options : InferenceOptions} {I J : Interpretation}

/-! ### Links between individuals -/

/-- All facts that relate two individuals of the ontology. -/
def links (w : World) : List Fact :=
  w.individualIds.flatMap fun s =>
    w.propertyIds.flatMap fun p => w.individualIds.map fun o => ⟨s, p, .individual o⟩

/-- The facts of this kind that are not known. -/
def missingLinks (w : World) (I : Interpretation) : List Fact :=
  w.links.filter (· ∉ I.facts)

theorem length_links (w : World) :
    w.links.length = w.individuals.size * (w.properties.size * w.individuals.size) := by
  simp [links, individualIds, propertyIds, List.length_flatMap, Function.comp_def]

theorem mem_links {s o : IndividualId} {p : PropertyId} :
    ⟨s, p, .individual o⟩ ∈ w.links ↔
      s ∈ w.individualIds ∧ p ∈ w.propertyIds ∧ o ∈ w.individualIds := by
  simp only [links, List.mem_flatMap, List.mem_map, Fact.mk.injEq, Value.individual.injEq]
  constructor
  · rintro ⟨_, hs, _, hp, _, ho, rfl, rfl, rfl⟩
    exact ⟨hs, hp, ho⟩
  · rintro ⟨hs, hp, ho⟩
    exact ⟨s, hs, p, hp, o, ho, rfl, rfl, rfl⟩

/-- A new fact of this kind is one less that is missing. -/
theorem length_missingLinks_lt (hIJ : I ≤ J) {f : Fact} (hf : f ∈ w.links) (hI : f ∉ I.facts)
    (hJ : f ∈ J.facts) : (w.missingLinks J).length < (w.missingLinks I).length := by
  refine length_filter_lt_of_imp (fun g _ hg => ?_) hf (by simpa using hI) (by simpa using hJ)
  rw [decide_eq_true_eq] at hg ⊢
  exact fun hg' => hg (hIJ.1 hg')

/-- The variable of a choice and the choice itself are individuals of the ontology. -/
theorem factOf_mem_links {m : SearchProblem.Model} (hm : (w.searchProblem I).IsSolution m)
    {v : Variable} {x : IndividualId} (h : (w.searchProblem I).Assigns m v x) :
    SearchProblem.factOf v x ∈ w.links := by
  obtain ⟨k, hk, hx⟩ := h
  obtain ⟨d, hd, rfl⟩ := Option.map_eq_some_iff.mp hk
  have hoption := hm.fits.mem hd hx
  obtain ⟨r, hr, s, hs, rfl⟩ := mem_start.mp (List.mem_of_getElem? hd)
  have hproperty : r.property ∈ w.propertyIds := (mem_searchedRelations.mp hr).2.1
  have hsubject : s ∈ w.individualIds := (List.mem_filter.mp (List.mem_filter.mp hs).1).1
  have hvalue : x ∈ w.possibleValues I r := by simpa [Slot.options] using hoption
  have hobject : x ∈ w.individualIds := (List.mem_filter.mp (List.mem_filter.mp hvalue).1).1
  cases r with
  | named p => exact mem_links.mpr ⟨hsubject, hproperty, hobject⟩
  | inverse p => exact mem_links.mpr ⟨hobject, hproperty, hsubject⟩

/-- **What a search commits to relates two individuals of the ontology.** -/
theorem entailed_subset_links {maxModels : Nat} {o : SearchProblem.Outcome}
    (h : (w.searchProblem I).solve maxModels = .ok o) : o.entailed ⊆ w.links := by
  have hp := w.searchProblem_wellFormed I
  intro f hf
  cases hcapped : o.isCapped with
  | true =>
    rw [SearchProblem.entailed_eq_nil hp h hcapped] at hf
    simp at hf
  | false =>
    obtain ⟨v, x, hcommon, rfl⟩ := (SearchProblem.mem_entailed hp h hcapped).mp hf
    obtain ⟨m, hm⟩ := SearchProblem.exists_isSolution_of_solve hp h
    exact factOf_mem_links hm (hcommon.2 m hm)

theorem constraints_mono (hIJ : I ≤ J) : w.constraints I ⊆ w.constraints J := by
  intro c hc
  simp only [constraints, List.mem_append, List.mem_flatMap, List.mem_map,
    Interpretation.mem_instancesOf] at hc ⊢
  rcases hc with hc | ⟨k, hk, r, hr, i, hi, rfl⟩
  · exact Or.inl hc
  · exact Or.inr ⟨k, hk, r, hr, i, hIJ.2 hi, rfl⟩

theorem le_of_saturate {n : Nat} {s : Saturated} (h : w.saturate n I = .ok s) :
    I ≤ s.interpretation :=
  (extends_saturateFrom (saturate_eq_ok h)).le

/-! ### Searches and saturations in turn -/

/-- Searches and saturations in turn lead from what a saturation arrived at to the end of reasoning;
the saturations on the way are listed. -/
inductive EndsIn (w : World) (options : InferenceOptions) :
    Reasoning → List Saturated → Reasoning → Prop
  /-- There are no restrictions. -/
  | unrestricted {r : Reasoning} (hnone : w.constraints r.interpretation = []) :
    EndsIn w options r [] r
  /-- The search is stopped early. -/
  | capped {r : Reasoning} {o : SearchProblem.Outcome}
    (hsome : w.constraints r.interpretation ≠ [])
    (hsolve : (w.searchProblem r.interpretation).solve options.maxModels = .ok o)
    (hcapped : o.isCapped = true) :
    EndsIn w options r [] { r with models := o.models, isExhaustive := false }
  /-- What the models have in common is known. -/
  | known {r : Reasoning} {o : SearchProblem.Outcome}
    (hsome : w.constraints r.interpretation ≠ [])
    (hsolve : (w.searchProblem r.interpretation).solve options.maxModels = .ok o)
    (hcapped : o.isCapped = false) (hknown : o.entailed ⊆ r.interpretation.facts) :
    EndsIn w options r [] { r with models := o.models }
  /-- What the models have in common leads on. -/
  | further {r final : Reasoning} {o : SearchProblem.Outcome} {s : Saturated}
    {later : List Saturated}
    (hsome : w.constraints r.interpretation ≠ [])
    (hsolve : (w.searchProblem r.interpretation).solve options.maxModels = .ok o)
    (hcapped : o.isCapped = false) (hnew : ¬o.entailed ⊆ r.interpretation.facts)
    (hsaturate : w.saturate options.maxIterations (r.interpretation.addFacts o.entailed) = .ok s)
    (hlater : EndsIn w options
      { interpretation := s.interpretation, models := o.models, rounds := r.rounds + s.rounds }
      later final) :
    EndsIn w options r (s :: later) final

/-- A search that leads on leaves fewer links missing. -/
theorem length_missingLinks_saturate {maxModels n : Nat} {o : SearchProblem.Outcome}
    {s : Saturated} (hsolve : (w.searchProblem I).solve maxModels = .ok o)
    (hnew : ¬o.entailed ⊆ I.facts) (hsaturate : w.saturate n (I.addFacts o.entailed) = .ok s) :
    (w.missingLinks s.interpretation).length < (w.missingLinks I).length := by
  obtain ⟨f, hf, hI⟩ : ∃ f ∈ o.entailed, f ∉ I.facts := by simpa [List.subset_def] using hnew
  have hle := le_of_saturate hsaturate
  have hI' : I ≤ s.interpretation := le_trans (Interpretation.extends_addFacts _ _).le hle
  refine length_missingLinks_lt hI' (entailed_subset_links hsolve hf) hI (hle.1 ?_)
  exact Interpretation.mem_addFacts.mpr (Or.inr hf)

/-- With more passes than missing links the passes do not run out. -/
theorem addCommonFacts_eq_ok_iff {passes : Nat} {r final : Reasoning}
    (hpasses : (w.missingLinks r.interpretation).length < passes) :
    w.addCommonFacts options passes r = .ok final ↔ ∃ later, w.EndsIn options r later final := by
  induction passes generalizing r with
  | zero => omega
  | succ passes ih =>
    rw [addCommonFacts]
    constructor
    · intro h
      split at h
      · next hnone =>
        rw [← Except.ok.inj h]
        exact ⟨[], .unrestricted (List.isEmpty_iff.mp hnone)⟩
      next hsome =>
      have hsome : w.constraints r.interpretation ≠ [] :=
        fun h => hsome (by simp [searchProblem, h])
      obtain ⟨o, hsolve, h⟩ := exists_of_bind_eq_ok h
      split at h
      · next hcapped =>
        rw [← Except.ok.inj h]
        exact ⟨[], .capped hsome hsolve hcapped⟩
      next hcapped =>
      have hcapped : o.isCapped = false := by simpa using hcapped
      dsimp only at h
      split at h
      · next hsize =>
        rw [← Except.ok.inj h]
        exact ⟨[], .known hsome hsolve hcapped (Interpretation.size_addFacts_eq_iff.mp hsize)⟩
      next hsize =>
      have hnew : ¬o.entailed ⊆ r.interpretation.facts :=
        fun hknown => hsize (Interpretation.size_addFacts_eq_iff.mpr hknown)
      obtain ⟨s, hsaturate, h⟩ := exists_of_bind_eq_ok h
      have hfewer := length_missingLinks_saturate hsolve hnew hsaturate
      obtain ⟨later, hlater⟩ := (ih (by dsimp only; omega)).mp h
      exact ⟨s :: later, .further hsome hsolve hcapped hnew hsaturate hlater⟩
    · rintro ⟨later, h⟩
      cases h with
      | unrestricted hnone => simp [searchProblem, hnone, pure, Except.pure]
      | capped hsome hsolve hcapped =>
        rw [if_neg (by simpa [searchProblem] using hsome), hsolve]
        simp [bind, Except.bind, pure, Except.pure, hcapped]
      | known hsome hsolve hcapped hknown =>
        rw [if_neg (by simpa [searchProblem] using hsome), hsolve]
        simp [bind, Except.bind, pure, Except.pure, hcapped,
          Interpretation.size_addFacts_eq_iff.mpr hknown]
      | @further r final o s later hsome hsolve hcapped hnew hsaturate hlater =>
        have hsize : ¬(r.interpretation.addFacts o.entailed).size = r.interpretation.size :=
          fun hsize => hnew (Interpretation.size_addFacts_eq_iff.mp hsize)
        have hfewer := length_missingLinks_saturate hsolve hnew hsaturate
        have hrest := (ih (by dsimp only; omega)).mpr ⟨later, hlater⟩
        rw [if_neg (by simpa [searchProblem] using hsome), hsolve]
        simp [bind, Except.bind, hcapped, hsize, hsaturate, hrest]

/-- **What every search with the saturation behind it preserves, all of them together do.** -/
theorem EndsIn.invariant {P : Interpretation → Prop}
    (hsearch : ∀ I o s, P I → (w.searchProblem I).solve options.maxModels = .ok o →
      w.saturate options.maxIterations (I.addFacts o.entailed) = .ok s → P s.interpretation)
    {r final : Reasoning} {later : List Saturated} (h : w.EndsIn options r later final)
    (hr : P r.interpretation) : P final.interpretation := by
  induction h with
  | unrestricted => exact hr
  | capped => exact hr
  | known => exact hr
  | further _ hsolve _ _ hsaturate _ ih => exact ih (hsearch _ _ _ hr hsolve hsaturate)

theorem EndsIn.le {r final : Reasoning} {later : List Saturated}
    (h : w.EndsIn options r later final) : r.interpretation ≤ final.interpretation := by
  refine h.invariant (fun I o s hI _ hsaturate => ?_) (le_refl _)
  have hadded : I ≤ I.addFacts o.entailed := (Interpretation.extends_addFacts _ _).le
  exact le_trans hI (le_trans hadded (le_of_saturate hsaturate))

/-- What is known in the end was known at the start, or some saturation arrived at it. -/
theorem EndsIn.interpretation_eq {r final : Reasoning} {later : List Saturated}
    (h : w.EndsIn options r later final) : final.interpretation = r.interpretation ∨
      ∃ s ∈ later, final.interpretation = s.interpretation ∧
        ∃ I, w.saturate options.maxIterations I = .ok s := by
  induction h with
  | unrestricted => exact Or.inl rfl
  | capped => exact Or.inl rfl
  | known => exact Or.inl rfl
  | further _ _ _ _ hsaturate _ ih =>
    rcases ih with hfinal | ⟨s, hs, hfinal, hI⟩
    · exact Or.inr ⟨_, List.mem_cons_self, hfinal, _, hsaturate⟩
    · exact Or.inr ⟨s, List.mem_cons_of_mem _ hs, hfinal, hI⟩

/-- There is one way to the end. -/
theorem EndsIn.unique {r final final' : Reasoning} {later later' : List Saturated}
    (h : w.EndsIn options r later final) (h' : w.EndsIn options r later' final') :
    later = later' ∧ final = final' := by
  induction h generalizing later' final' with
  | unrestricted hnone =>
    cases h' with
    | unrestricted => exact ⟨rfl, rfl⟩
    | capped hsome | known hsome | further hsome => exact absurd hnone hsome
  | capped hsome hsolve hcapped =>
    cases h' with
    | unrestricted hnone => exact absurd hnone hsome
    | capped _ hsolve' | known _ hsolve' | further _ hsolve' => grind
  | known hsome hsolve hcapped hknown =>
    cases h' with
    | unrestricted hnone => exact absurd hnone hsome
    | capped _ hsolve' | known _ hsolve' | further _ hsolve' => grind
  | further hsome hsolve hcapped hnew hsaturate hlater ih =>
    cases h' with
    | unrestricted hnone => exact absurd hnone hsome
    | capped _ hsolve' | known _ hsolve' => grind
    | further _ hsolve' _ _ hsaturate' hlater' =>
      rw [hsolve, Except.ok.injEq] at hsolve'
      subst hsolve'
      rw [hsaturate, Except.ok.injEq] at hsaturate'
      subst hsaturate'
      obtain ⟨rfl, rfl⟩ := ih hlater'
      exact ⟨rfl, rfl⟩

/-! ### Reasoning as a whole -/

/-- Reasoning from what is stated or was inferred before to its end, with all of its saturations. -/
def Course (w : World) (options : InferenceOptions) (saturations : List Saturated)
    (final : Reasoning) : Prop :=
  ∃ s later, saturations = s :: later ∧
    w.saturate options.maxIterations w.interpretation = .ok s ∧
    w.EndsIn options { interpretation := s.interpretation, rounds := s.rounds } later final

/-- There are more passes than links. -/
theorem length_missingLinks_lt_maxPasses (I : Interpretation) :
    (w.missingLinks I).length < w.maxPasses := by
  have hle : (w.missingLinks I).length ≤ w.links.length := List.length_filter_le _ _
  rw [length_links, Nat.mul_comm w.properties.size, ← Nat.mul_assoc] at hle
  rw [maxPasses]
  omega

/-- **Reasoning follows its course to the end**: the searches that it is allowed do not run out. -/
theorem reason_eq_ok_iff {final : Reasoning} :
    w.reason options = .ok final ↔ ∃ saturations, w.Course options saturations final := by
  rw [reason]
  constructor
  · intro h
    obtain ⟨s, hs, h⟩ := exists_of_bind_eq_ok h
    obtain ⟨later, hlater⟩ := (addCommonFacts_eq_ok_iff (length_missingLinks_lt_maxPasses _)).mp h
    exact ⟨s :: later, s, later, rfl, hs, hlater⟩
  · rintro ⟨_, s, later, rfl, hs, hlater⟩
    rw [hs]
    exact (addCommonFacts_eq_ok_iff (length_missingLinks_lt_maxPasses _)).mpr ⟨later, hlater⟩

/-- Reasoning has one course. -/
theorem Course.unique {saturations saturations' : List Saturated} {final final' : Reasoning}
    (h : w.Course options saturations final) (h' : w.Course options saturations' final') :
    saturations = saturations' ∧ final = final' := by
  obtain ⟨s, later, rfl, hs, hlater⟩ := h
  obtain ⟨s', later', rfl, hs', hlater'⟩ := h'
  rw [hs, Except.ok.injEq] at hs'
  subst hs'
  obtain ⟨rfl, rfl⟩ := hlater.unique hlater'
  exact ⟨rfl, rfl⟩

/-- What is known in the end is what some saturation arrived at. -/
theorem Course.exists_saturated {saturations : List Saturated} {final : Reasoning}
    (h : w.Course options saturations final) :
    ∃ s ∈ saturations, final.interpretation = s.interpretation ∧
      ∃ I, w.saturate options.maxIterations I = .ok s := by
  obtain ⟨s, later, rfl, hs, hlater⟩ := h
  rcases hlater.interpretation_eq with hfinal | ⟨t, ht, hfinal, hI⟩
  · exact ⟨s, List.mem_cons_self, hfinal, _, hs⟩
  · exact ⟨t, List.mem_cons_of_mem _ ht, hfinal, hI⟩

/-- What is known in the end is what the last saturation arrived at. -/
theorem EndsIn.interpretation_getLast {r final : Reasoning} {later : List Saturated}
    (h : w.EndsIn options r later final) {first : Saturated}
    (hr : r.interpretation = first.interpretation)
    (hfirst : ∃ I, w.saturate options.maxIterations I = .ok first) :
    ∃ last, (first :: later).getLast? = some last ∧
      final.interpretation = last.interpretation ∧
      ∃ I, w.saturate options.maxIterations I = .ok last := by
  induction h generalizing first with
  | unrestricted | capped | known => exact ⟨first, rfl, hr, hfirst⟩
  | further _ _ _ _ hsaturate _ ih =>
    obtain ⟨last, hlast, hfinal⟩ := ih rfl ⟨_, hsaturate⟩
    exact ⟨last, by rw [List.getLast?_cons_cons, hlast], hfinal⟩

theorem Course.interpretation_getLast {saturations : List Saturated} {final : Reasoning}
    (h : w.Course options saturations final) :
    ∃ last, saturations.getLast? = some last ∧ final.interpretation = last.interpretation ∧
      ∃ I, w.saturate options.maxIterations I = .ok last := by
  obtain ⟨s, later, rfl, hs, hlater⟩ := h
  exact hlater.interpretation_getLast rfl ⟨_, hs⟩

theorem Course.le {saturations : List Saturated} {final : Reasoning}
    (h : w.Course options saturations final) : w.interpretation ≤ final.interpretation := by
  obtain ⟨s, later, -, hs, hlater⟩ := h
  exact le_trans (le_of_saturate hs) hlater.le

/-! ### Reports -/

/-- A report is the part of what is known in the end that is asked for and not stated. -/
theorem infer_eq_ok {report : InferenceReport} (h : w.infer options = .ok report) :
    ∃ final, w.reason options = .ok final ∧
      (∀ t, t ∈ report.inferredTypes ↔
        t ∈ final.interpretation.types ∧ .named t.2 ∉ (w.getIndividual t.1).isA) ∧
      (∀ f, f ∈ report.inferredFacts ↔ f ∈ final.interpretation.facts ∧
        InferenceOptions.wants options f.value = true ∧
          f.value ∉ w.assertedValues f.subject f.property) ∧
      report.models = final.models ∧ report.exhaustive = final.isExhaustive := by
  rw [infer] at h
  obtain ⟨final, hfinal, h⟩ := exists_of_bind_eq_ok h
  rw [← Except.ok.inj h]
  exact ⟨final, hfinal, by simp, by simp, rfl, rfl⟩

end World

end Ontology
