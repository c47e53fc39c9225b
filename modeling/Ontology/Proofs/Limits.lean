import Ontology.Proofs.Clashes

/-!
# Limits of the search

A search that finds fewer models than it may finds the same ones if it may find more.  So reasoning
with a higher limit takes the same course as with a lower one until the lower one is reached, and
from there on it only adds to what is known.

## Main results

* `SearchProblem.firstModels_of_le` — **a limit that is not reached does not matter to the models
  that are found.**
* `SearchProblem.solve_of_le` — nor to the answer of the search.
* `World.EndsIn.of_le` — nor to the course of reasoning.
* `World.infer_of_exhaustive` — nor to the report.
* `World.infer_of_le` — **a lower limit only withholds results.**
-/

namespace Ontology

namespace SearchProblem

variable {p : SearchProblem}

/-! ### Models -/

theorem length_le_branchStep {limit : Nat} {ds : List Decision} {b : Branching}
    {found : List Model} {x : Option IndividualId} :
    found.length ≤ (p.branchStep limit ds b found x).length := by
  rw [branchStep]
  split
  · exact le_refl _
  split
  · exact le_refl _
  · rw [List.length_append]
    exact Nat.le_add_right _ _

theorem length_le_foldl_branchStep {limit : Nat} {ds : List Decision} {b : Branching}
    {xs : List (Option IndividualId)} {found : List Model} :
    found.length ≤ (xs.foldl (p.branchStep limit ds b) found).length := by
  induction xs generalizing found with
  | nil => exact le_refl _
  | cons x xs ih =>
    rw [List.foldl_cons]
    exact le_trans length_le_branchStep ih

/-- A branch that does not reach the limit finds the same with a higher one. -/
theorem branchStep_of_le {limit limit' : Nat} {ds : List Decision} {b : Branching}
    {found : List Model} {x : Option IndividualId} (hle : limit ≤ limit')
    (hbranch : ∀ next, p.decide ds b x = some next → ∀ l l', l ≤ l' →
      (p.firstModels l next).length < l → p.firstModels l' next = p.firstModels l next)
    (hlt : (p.branchStep limit ds b found x).length < limit) :
    p.branchStep limit' ds b found x = p.branchStep limit ds b found x := by
  have hfound : found.length < limit := lt_of_le_of_lt length_le_branchStep hlt
  rw [branchStep, if_neg (by omega)] at hlt
  rw [branchStep, branchStep, if_neg (by omega), if_neg (by omega)]
  cases hdecide : p.decide ds b x with
  | none => rfl
  | some next =>
    rw [hdecide] at hlt
    dsimp only at hlt ⊢
    rw [List.length_append] at hlt
    rw [hbranch next hdecide (limit - found.length) (limit' - found.length) (by omega) (by omega)]

/-- Branches that together do not reach the limit find the same with a higher one. -/
theorem foldl_branchStep_of_le {limit limit' : Nat} {ds : List Decision} {b : Branching}
    (hle : limit ≤ limit')
    (hbranch : ∀ x next, p.decide ds b x = some next → ∀ l l', l ≤ l' →
      (p.firstModels l next).length < l → p.firstModels l' next = p.firstModels l next)
    {xs : List (Option IndividualId)} {found : List Model}
    (hlt : (xs.foldl (p.branchStep limit ds b) found).length < limit) :
    xs.foldl (p.branchStep limit' ds b) found = xs.foldl (p.branchStep limit ds b) found := by
  induction xs generalizing found with
  | nil => rfl
  | cons x xs ih =>
    rw [List.foldl_cons] at hlt ⊢
    have hstep := branchStep_of_le hle (hbranch x) (lt_of_le_of_lt length_le_foldl_branchStep hlt)
    rw [List.foldl_cons, hstep]
    exact ih hlt

/-- **A limit that is not reached does not matter to the models that are found.** -/
theorem firstModels_of_le {limit limit' : Nat} {ds : List Decision} (hle : limit ≤ limit')
    (hlt : (p.firstModels limit ds).length < limit) :
    p.firstModels limit' ds = p.firstModels limit ds := by
  generalize hn : (undecided ds).count true = n
  -- every decision leaves fewer variables undecided
  induction n using Nat.strong_induction_on generalizing limit limit' ds with
  | _ n ih =>
    cases hb : branching? 0 ds with
    | none => rw [firstModels_of_decided hb, firstModels_of_decided hb]
    | some b =>
      rw [firstModels_of_branching hb] at hlt
      rw [firstModels_of_branching hb, firstModels_of_branching hb]
      refine foldl_branchStep_of_le hle ?_ hlt
      intro x next hdecide l l' hl hlt'
      exact ih _ (hn ▸ count_undecided_decide hb hdecide) hl hlt' rfl

/-- A limit that is not reached does not matter to the answer of the search. -/
theorem solve_of_le {limit limit' : Nat} {o : Outcome} (hle : limit ≤ limit')
    (h : p.solve limit = .ok o) (hcapped : o.isCapped = false) : p.solve limit' = .ok o := by
  rw [solve] at h ⊢
  split at h
  · simp at h
  dsimp only at h ⊢
  split at h
  · simp at h
  next m others hfound =>
  rw [Except.ok.injEq] at h
  subst h
  have hlt : others.length + 1 < max limit 1 := by simpa using hcapped
  have hfound' : (p.propagate p.start).elim [] (p.firstModels (max limit' 1)) = m :: others := by
    cases hds : p.propagate p.start with
    | none =>
      rw [hds] at hfound
      simp at hfound
    | some ds =>
      rw [hds, Option.elim_some] at hfound
      rw [Option.elim_some, ← hfound]
      refine firstModels_of_le (by omega) ?_
      rw [hfound, List.length_cons]
      exact hlt
  rw [hfound']
  dsimp only
  rw [decide_eq_false (by omega), decide_eq_false (by omega), if_neg (by omega), if_neg (by omega)]

end SearchProblem

namespace World

variable {w : World} {options : InferenceOptions} {limit limit' : Nat}

/-! ### Reasoning -/

/-- A limit that is not reached does not matter to the course of reasoning. -/
theorem EndsIn.of_le (hle : limit ≤ limit') {r final : Reasoning} {later : List Saturated}
    (h : w.EndsIn { options with maxModels := limit } r later final)
    (hexhaustive : final.isExhaustive = true) :
    w.EndsIn { options with maxModels := limit' } r later final := by
  induction h with
  | unrestricted hnone => exact .unrestricted hnone
  | capped => simp at hexhaustive
  | known hsome hsolve hcapped hknown =>
    exact .known hsome (SearchProblem.solve_of_le hle hsolve hcapped) hcapped hknown
  | further hsome hsolve hcapped hnew hsaturate _ ih =>
    exact .further hsome (SearchProblem.solve_of_le hle hsolve hcapped) hcapped hnew hsaturate
      (ih hexhaustive)

/-- With a lower limit no more is known in the end. -/
theorem EndsIn.le_of_le (hle : limit ≤ limit') {r final final' : Reasoning}
    {later later' : List Saturated}
    (h : w.EndsIn { options with maxModels := limit } r later final)
    (h' : w.EndsIn { options with maxModels := limit' } r later' final') :
    final.interpretation ≤ final'.interpretation := by
  induction h generalizing later' final' with
  | unrestricted => exact h'.le
  | capped => exact h'.le
  | known => exact h'.le
  | further hsome hsolve hcapped hnew hsaturate _ ih =>
    -- the limit is not reached, so the other run is led on by the same facts
    have hsolve' := SearchProblem.solve_of_le hle hsolve hcapped
    cases h' with
    | unrestricted hnone => exact absurd hnone hsome
    | capped _ hother hcapped' => grind
    | known _ hother _ hknown => grind
    | further _ hother _ _ hsaturate' hlater' =>
      rw [hsolve', Except.ok.injEq] at hother
      subst hother
      rw [hsaturate, Except.ok.injEq] at hsaturate'
      subst hsaturate'
      exact ih hlater'

/-- **A limit that is not reached does not matter to the report.** -/
theorem infer_of_exhaustive (hle : limit ≤ limit') {report : InferenceReport}
    (h : w.infer { options with maxModels := limit } = .ok report)
    (hreport : report.exhaustive = true) :
    w.infer { options with maxModels := limit' } = .ok report := by
  obtain ⟨final, hfinal, -, -, -, hexhaustive⟩ := infer_eq_ok h
  obtain ⟨_, s, later, rfl, hs, hlater⟩ := reason_eq_ok_iff.mp hfinal
  have hlater' := hlater.of_le hle (hexhaustive.symm.trans hreport)
  have hfinal' : w.reason { options with maxModels := limit' } = .ok final :=
    reason_eq_ok_iff.mpr ⟨_, s, later, rfl, hs, hlater'⟩
  rw [infer, hfinal] at h
  rw [infer, hfinal']
  exact h

/-- **A lower limit only withholds results**: what is reported with it is reported with a higher
one, and if it was not reached the reports are the same. -/
theorem infer_of_le (hle : limit ≤ limit') {report report' : InferenceReport}
    (h : w.infer { options with maxModels := limit } = .ok report)
    (h' : w.infer { options with maxModels := limit' } = .ok report') :
    report.inferredTypes ⊆ report'.inferredTypes ∧ report.inferredFacts ⊆ report'.inferredFacts ∧
      (report.exhaustive = true → report' = report) := by
  obtain ⟨final, hfinal, htypes, hfacts, -, -⟩ := infer_eq_ok h
  obtain ⟨final', hfinal', htypes', hfacts', -, -⟩ := infer_eq_ok h'
  have hknown : final.interpretation ≤ final'.interpretation := by
    obtain ⟨_, s, later, -, hs, hlater⟩ := reason_eq_ok_iff.mp hfinal
    obtain ⟨_, s', later', -, hs', hlater'⟩ := reason_eq_ok_iff.mp hfinal'
    -- both runs start with the same saturation
    rw [hs, Except.ok.injEq] at hs'
    subst hs'
    exact hlater.le_of_le hle hlater'
  refine ⟨fun t ht => ?_, fun f hf => ?_, fun hreport => ?_⟩
  · obtain ⟨ht, hnew⟩ := (htypes t).mp ht
    exact (htypes' t).mpr ⟨hknown.2 ht, hnew⟩
  · obtain ⟨hf, hnew⟩ := (hfacts f).mp hf
    exact (hfacts' f).mpr ⟨hknown.1 hf, hnew⟩
  · rw [infer_of_exhaustive hle h hreport, Except.ok.injEq] at h'
    exact h'.symm

/-- What is reported about the party if no model is waited for: that the guest is one. -/
def partyReportCapped : InferenceReport where
  inferredTypes := [(⟨1⟩, ⟨0⟩)]
  models := 1
  exhaustive := false
  iterations := 2

/-- The greeting is withheld if the first model ends the search, and nothing is if the second one
would. -/
theorem infer_of_le_party :
    (partyReportCapped.inferredTypes ⊆ partyReport.inferredTypes ∧
      partyReportCapped.inferredFacts ⊆ partyReport.inferredFacts) ∧
    ∀ limit, 2 ≤ limit → ∀ report, party.infer { maxModels := limit } = .ok report →
      report = partyReport := by
  have hone : party.infer { maxModels := 1 } = .ok partyReportCapped := by decide +kernel
  have htwo : party.infer { maxModels := 2 } = .ok partyReport := by decide +kernel
  have hcapped := @infer_of_le party {} 1 2 (by decide) _ _ hone htwo
  refine ⟨⟨hcapped.1, hcapped.2.1⟩, fun limit hlimit report hreport => ?_⟩
  exact (@infer_of_le party {} 2 limit hlimit _ _ htwo hreport).2.2 rfl

end World

end Ontology
