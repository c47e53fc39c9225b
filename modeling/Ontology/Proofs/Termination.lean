import Ontology.Proofs.Mentions

/-!
# Reasoning ends

Reasoning consists of loops: rounds of a saturation, sweeps that drop options, searches within
searches, and searches and saturations in turn.  Each of them ends, for a reason of its own: there
are finitely many facts and types to add, options to drop, variables to decide, and pairs of
individuals to relate.  The loops are described here as they run, without a count that would stop
them.

## Main definitions

* `SearchProblem.Sweeps` — options are dropped until none is dropped any more.
* `SearchProblem.Searches`, `SearchProblem.Tries` — one variable is decided after the other.
* `World.Alternates`, `World.Runs` — searches and saturations take turns.

## Main results

* `SearchProblem.exists_sweeps` — **propagation ends,** after at most as many sweeps as there are
  options, and one more.
* `SearchProblem.exists_searches` — **a search ends,** and goes no deeper than there are variables.
* `World.exists_runs` — searches and saturations come to an end.
* `World.Runs.liesIn` — every saturation starts from what the ontology mentions.
* `World.reasoning_ends` — **reasoning ends on every ontology and with all options.**
-/

namespace Ontology

namespace SearchProblem

variable {p : SearchProblem}

/-! ### Sweeps -/

/-- Sweeps until no option is dropped any more, or until no option is left for some variable; the
number counts them. -/
inductive Sweeps (p : SearchProblem) : List Decision → Nat → Option (List Decision) → Prop
  | exhausted {ds : List Decision} (hsweep : p.sweep ds = none) : Sweeps p ds 1 none
  | settled {ds next : List Decision} (hsweep : p.sweep ds = some next)
    (hsize : size next = size ds) : Sweeps p ds 1 (some next)
  | again {ds next : List Decision} {sweeps : Nat} {answer : Option (List Decision)}
    (hsweep : p.sweep ds = some next) (hsize : size next ≠ size ds)
    (hrest : Sweeps p next sweeps answer) : Sweeps p ds (sweeps + 1) answer

theorem Shrinks.size_le {ds es : List Decision} (h : Shrinks ds es) : size es ≤ size ds := by
  induction h with
  | nil => exact Nat.le_refl _
  | cons hd _ ih =>
    rw [size, size]
    exact Nat.add_le_add hd.options.length_le ih

/-- **Propagation ends.**  A sweep that is followed by another one has dropped an option. -/
theorem exists_sweeps (p : SearchProblem) (ds : List Decision) :
    ∃ sweeps ≤ size ds + 1, p.Sweeps ds sweeps (p.propagate ds) := by
  fun_induction propagate p ds with
  | case1 ds hsweep => exact ⟨1, Nat.le_add_left _ _, .exhausted hsweep⟩
  | case2 ds next hsweep hlt ih =>
    obtain ⟨sweeps, hle, hrest⟩ := ih
    exact ⟨sweeps + 1, by omega, .again hsweep (Nat.ne_of_lt hlt) hrest⟩
  | case3 ds next hsweep hge =>
    have hle : size next ≤ size ds := (foldlM_narrow_shrinks hsweep).size_le
    exact ⟨1, Nat.le_add_left _ _, .settled hsweep (by omega)⟩

/-! ### Searches -/

mutual

/-- A search from some decisions ends: it puts the models it finds behind those that are known, and
tells whether they have become too many.  It goes no deeper than the number says. -/
inductive Searches (p : SearchProblem) (limit : Nat) :
    Nat → List Decision → List Model → List Model → Bool → Prop
  | model {depth : Nat} {ds : List Decision} {found : List Model} (hb : branching? 0 ds = none) :
    Searches p limit (depth + 1) ds found (found ++ [choices ds]) (limit ≤ found.length + 1)
  | branch {depth : Nat} {ds : List Decision} {found found' : List Model} {stopped : Bool}
    {b : Branching} (hb : branching? 0 ds = some b)
    (htries : Tries p limit depth ds b b.options found found' stopped) :
    Searches p limit (depth + 1) ds found found' stopped

/-- The options of a variable are tried one after the other, until there are too many models. -/
inductive Tries (p : SearchProblem) (limit : Nat) :
    Nat → List Decision → Branching → List (Option IndividualId) → List Model → List Model → Bool →
      Prop
  | finished {depth : Nat} {ds : List Decision} {b : Branching} {found : List Model} :
    Tries p limit depth ds b [] found found false
  | rejected {depth : Nat} {ds : List Decision} {b : Branching} {x : Option IndividualId}
    {xs : List (Option IndividualId)} {found found' : List Model} {stopped : Bool}
    (hdecide : p.decide ds b x = none)
    (hrest : Tries p limit depth ds b xs found found' stopped) :
    Tries p limit depth ds b (x :: xs) found found' stopped
  | stopped {depth : Nat} {ds next : List Decision} {b : Branching} {x : Option IndividualId}
    {xs : List (Option IndividualId)} {found found' : List Model}
    (hdecide : p.decide ds b x = some next)
    (hsearch : Searches p limit depth next found found' true) :
    Tries p limit depth ds b (x :: xs) found found' true
  | searched {depth : Nat} {ds next : List Decision} {b : Branching} {x : Option IndividualId}
    {xs : List (Option IndividualId)} {found mid found' : List Model} {stopped : Bool}
    (hdecide : p.decide ds b x = some next)
    (hsearch : Searches p limit depth next found mid false)
    (hrest : Tries p limit depth ds b xs mid found' stopped) :
    Tries p limit depth ds b (x :: xs) found found' stopped

end

/-- Branches that come after the limit is reached are not looked at. -/
theorem foldl_branchStep_of_limit_le {limit : Nat} {ds : List Decision} {b : Branching}
    (xs : List (Option IndividualId)) {found : List Model} (h : limit ≤ found.length) :
    xs.foldl (p.branchStep limit ds b) found = found := by
  induction xs with
  | nil => rfl
  | cons x xs ih => rw [List.foldl_cons, branchStep, if_pos h, ih]

theorem branchStep_of_rejected {limit : Nat} {ds : List Decision} {b : Branching}
    {x : Option IndividualId} (found : List Model) (hdecide : p.decide ds b x = none) :
    p.branchStep limit ds b found x = found := by
  rw [branchStep, hdecide, ite_self]

theorem branchStep_of_decided {limit : Nat} {ds next : List Decision} {b : Branching}
    {x : Option IndividualId} {found : List Model} (hopen : ¬limit ≤ found.length)
    (hdecide : p.decide ds b x = some next) :
    p.branchStep limit ds b found x = found ++ p.firstModels (limit - found.length) next := by
  rw [branchStep, if_neg hopen, hdecide]

/-- The options of a variable come to an end if the searches behind them do. -/
theorem exists_tries {limit depth : Nat} {ds : List Decision} {b : Branching} {found : List Model}
    (hnext : ∀ x next, p.decide ds b x = some next → ∀ found : List Model, found.length < limit →
      p.Searches limit depth next found (found ++ p.firstModels (limit - found.length) next)
        (limit ≤ (found ++ p.firstModels (limit - found.length) next).length))
    (xs : List (Option IndividualId)) (later : List Model) (hlt : (found ++ later).length < limit) :
    p.Tries limit depth ds b xs (found ++ later)
      (found ++ xs.foldl (p.branchStep (limit - found.length) ds b) later)
      (limit ≤ (found ++ xs.foldl (p.branchStep (limit - found.length) ds b) later).length) := by
  induction xs generalizing later with
  | nil =>
    rw [List.foldl_nil, decide_eq_false (Nat.not_le.mpr hlt)]
    exact .finished
  | cons x xs ih =>
    rw [List.foldl_cons]
    cases hdecide : p.decide ds b x with
    | none =>
      rw [branchStep_of_rejected later hdecide]
      exact .rejected hdecide (ih later hlt)
    | some next =>
      have hopen : ¬limit - found.length ≤ later.length := by
        rw [List.length_append] at hlt
        omega
      have hsearch := hnext x next hdecide (found ++ later) hlt
      rw [List.length_append, ← Nat.sub_sub, List.append_assoc] at hsearch
      rw [branchStep_of_decided hopen hdecide]
      generalize later ++ p.firstModels (limit - found.length - later.length) next = mid
        at hsearch ⊢
      by_cases hfull : limit ≤ (found ++ mid).length
      · have hfull' : limit - found.length ≤ mid.length := by
          rw [List.length_append] at hfull
          omega
        rw [decide_eq_true hfull] at hsearch
        rw [foldl_branchStep_of_limit_le xs hfull', decide_eq_true hfull]
        exact .stopped hdecide hsearch
      · rw [decide_eq_false hfull] at hsearch
        exact .searched hdecide hsearch (ih mid (Nat.not_le.mp hfull))

/-- **A search ends,** and goes no deeper than there are variables to decide: with each decision
there is one less. -/
theorem exists_searches {limit depth : Nat} {ds : List Decision}
    (hdepth : (undecided ds).count true < depth) (found : List Model) (hlt : found.length < limit) :
    p.Searches limit depth ds found (found ++ p.firstModels (limit - found.length) ds)
      (limit ≤ (found ++ p.firstModels (limit - found.length) ds).length) := by
  induction depth generalizing ds found with
  | zero => exact absurd hdepth (Nat.not_lt_zero _)
  | succ depth ih =>
    cases hb : branching? 0 ds with
    | none =>
      rw [firstModels_of_decided hb, List.length_append, List.length_singleton]
      exact .model hb
    | some b =>
      have hnext : ∀ x next, p.decide ds b x = some next → ∀ found : List Model,
          found.length < limit → p.Searches limit depth next found
            (found ++ p.firstModels (limit - found.length) next)
            (limit ≤ (found ++ p.firstModels (limit - found.length) next).length) := by
        intro x next hdecide found hlt
        have hfewer := count_undecided_decide hb hdecide
        exact ih (by omega) found hlt
      have htries := exists_tries hnext b.options []
        (by rwa [List.append_nil])
      rw [List.append_nil, ← firstModels_of_branching hb] at htries
      exact .branch hb htries

end SearchProblem

namespace World

variable {w : World} {options : InferenceOptions}

/-! ### Searches and saturations in turn -/

/-- Searches and saturations take turns until there is an answer.  They are listed by what they
start from. -/
inductive Alternates (w : World) (options : InferenceOptions) :
    Reasoning → List Interpretation → List Interpretation → Except Inconsistency Reasoning → Prop
  /-- There are no restrictions. -/
  | unrestricted {r : Reasoning} (hnone : w.constraints r.interpretation = []) :
    Alternates w options r [] [] (.ok r)
  /-- There is no model. -/
  | failed {r : Reasoning} {e : Inconsistency} (hsome : w.constraints r.interpretation ≠ [])
    (hsolve : (w.searchProblem r.interpretation).solve options.maxModels = .error e) :
    Alternates w options r [r.interpretation] [] (.error e)
  /-- The search is stopped early. -/
  | capped {r : Reasoning} {o : SearchProblem.Outcome}
    (hsome : w.constraints r.interpretation ≠ [])
    (hsolve : (w.searchProblem r.interpretation).solve options.maxModels = .ok o)
    (hcapped : o.isCapped = true) :
    Alternates w options r [r.interpretation] []
      (.ok { r with models := o.models, isExhaustive := false })
  /-- What the models have in common is known. -/
  | known {r : Reasoning} {o : SearchProblem.Outcome}
    (hsome : w.constraints r.interpretation ≠ [])
    (hsolve : (w.searchProblem r.interpretation).solve options.maxModels = .ok o)
    (hcapped : o.isCapped = false) (hknown : o.entailed ⊆ r.interpretation.facts) :
    Alternates w options r [r.interpretation] [] (.ok { r with models := o.models })
  /-- What the models have in common leads to an inconsistency. -/
  | clash {r : Reasoning} {o : SearchProblem.Outcome} {e : Inconsistency}
    (hsome : w.constraints r.interpretation ≠ [])
    (hsolve : (w.searchProblem r.interpretation).solve options.maxModels = .ok o)
    (hcapped : o.isCapped = false) (hnew : ¬o.entailed ⊆ r.interpretation.facts)
    (hsaturate : w.saturate options.maxIterations (r.interpretation.addFacts o.entailed)
      = .error e) :
    Alternates w options r [r.interpretation] [r.interpretation.addFacts o.entailed] (.error e)
  /-- What the models have in common leads on. -/
  | further {r : Reasoning} {o : SearchProblem.Outcome} {s : Saturated}
    {searches saturations : List Interpretation} {answer : Except Inconsistency Reasoning}
    (hsome : w.constraints r.interpretation ≠ [])
    (hsolve : (w.searchProblem r.interpretation).solve options.maxModels = .ok o)
    (hcapped : o.isCapped = false) (hnew : ¬o.entailed ⊆ r.interpretation.facts)
    (hsaturate : w.saturate options.maxIterations (r.interpretation.addFacts o.entailed) = .ok s)
    (hlater : Alternates w options
      { interpretation := s.interpretation, models := o.models, rounds := r.rounds + s.rounds }
      searches saturations answer) :
    Alternates w options r (r.interpretation :: searches)
      (r.interpretation.addFacts o.entailed :: saturations) answer

/-- Reasoning starts with a saturation of what is stated or was inferred before. -/
inductive Runs (w : World) (options : InferenceOptions) :
    List Interpretation → List Interpretation → Except Inconsistency Reasoning → Prop
  | clash {e : Inconsistency}
    (hsaturate : w.saturate options.maxIterations w.interpretation = .error e) :
    Runs w options [] [w.interpretation] (.error e)
  | onward {s : Saturated} {searches saturations : List Interpretation}
    {answer : Except Inconsistency Reasoning}
    (hsaturate : w.saturate options.maxIterations w.interpretation = .ok s)
    (hturns : Alternates w options { interpretation := s.interpretation, rounds := s.rounds }
      searches saturations answer) :
    Runs w options searches (w.interpretation :: saturations) answer

/-- A search is followed by another one that knows a value which relates two individuals and was not
known before. -/
def Relates (w : World) (I J : Interpretation) : Prop :=
  ∃ s ∈ w.individualIds, ∃ p ∈ w.propertyIds, ∃ o ∈ w.individualIds,
    ⟨s, p, .individual o⟩ ∉ I.facts ∧ ⟨s, p, .individual o⟩ ∈ J.facts

/-- With more passes than links are missing the turns come to an end before the passes do. -/
theorem exists_alternates (options : InferenceOptions) {passes : Nat} {r : Reasoning}
    (hpasses : (w.missingLinks r.interpretation).length < passes) :
    ∃ searches saturations,
      w.Alternates options r searches saturations (w.addCommonFacts options passes r) := by
  induction passes generalizing r with
  | zero => exact absurd hpasses (Nat.not_lt_zero _)
  | succ passes ih =>
    rw [addCommonFacts]
    dsimp only
    by_cases hnone : w.constraints r.interpretation = []
    · rw [if_pos (by simpa [searchProblem] using hnone)]
      exact ⟨[], [], .unrestricted hnone⟩
    rw [if_neg (by simpa [searchProblem] using hnone)]
    cases hsolve : (w.searchProblem r.interpretation).solve options.maxModels with
    | error e => exact ⟨_, _, .failed hnone hsolve⟩
    | ok o =>
      dsimp only [bind, Except.bind]
      cases hcapped : o.isCapped with
      | true => exact ⟨_, _, .capped hnone hsolve hcapped⟩
      | false =>
        rw [if_neg Bool.false_ne_true]
        by_cases hknown : o.entailed ⊆ r.interpretation.facts
        · rw [if_pos (Interpretation.size_addFacts_eq_iff.mpr hknown)]
          exact ⟨_, _, .known hnone hsolve hcapped hknown⟩
        rw [if_neg fun hsize => hknown (Interpretation.size_addFacts_eq_iff.mp hsize)]
        cases hsaturate :
            w.saturate options.maxIterations (r.interpretation.addFacts o.entailed) with
        | error e => exact ⟨_, _, .clash hnone hsolve hcapped hknown hsaturate⟩
        | ok s =>
          have hfewer := length_missingLinks_saturate hsolve hknown hsaturate
          obtain ⟨searches, saturations, hlater⟩ :=
            ih (r := ⟨s.interpretation, o.models, true, r.rounds + s.rounds⟩) (by dsimp only; omega)
          exact ⟨_, _, .further hnone hsolve hcapped hknown hsaturate hlater⟩

/-- **Searches and saturations come to an end.** -/
theorem exists_runs (w : World) (options : InferenceOptions) :
    ∃ searches saturations, w.Runs options searches saturations (w.reason options) := by
  rw [reason]
  cases hsaturate : w.saturate options.maxIterations w.interpretation with
  | error e => exact ⟨_, _, .clash hsaturate⟩
  | ok s =>
    obtain ⟨searches, saturations, hturns⟩ := exists_alternates options
      (r := { interpretation := s.interpretation, rounds := s.rounds })
      (length_missingLinks_lt_maxPasses s.interpretation)
    exact ⟨_, _, .onward hsaturate hturns⟩

/-- The first search starts from what is known. -/
theorem Alternates.head?_eq {r : Reasoning} {searches saturations : List Interpretation}
    {answer : Except Inconsistency Reasoning}
    (h : w.Alternates options r searches saturations answer) :
    ∀ I ∈ searches.head?, I = r.interpretation := by
  cases h with
  | unrestricted => simp
  | failed | capped | known | clash | further => simp

/-- Every search but the last one relates two individuals anew, so there are no more searches than
links that are missing, and one. -/
theorem Alternates.length_le {r : Reasoning} {searches saturations : List Interpretation}
    {answer : Except Inconsistency Reasoning}
    (h : w.Alternates options r searches saturations answer) :
    searches.length ≤ 1 + (w.missingLinks r.interpretation).length := by
  induction h with
  | unrestricted => exact Nat.zero_le _
  | failed | capped | known | clash => exact Nat.le_add_right _ _
  | further _ hsolve _ hnew hsaturate _ ih =>
    have hfewer := length_missingLinks_saturate hsolve hnew hsaturate
    rw [List.length_cons]
    dsimp only at ih
    omega

/-- A search that leads on relates two individuals anew. -/
theorem relates_of_solve {I : Interpretation} {maxModels n : Nat} {o : SearchProblem.Outcome}
    {s : Saturated} (hsolve : (w.searchProblem I).solve maxModels = .ok o)
    (hnew : ¬o.entailed ⊆ I.facts) (hsaturate : w.saturate n (I.addFacts o.entailed) = .ok s) :
    w.Relates I s.interpretation := by
  obtain ⟨f, hf, hI⟩ : ∃ f ∈ o.entailed, f ∉ I.facts := by simpa [List.subset_def] using hnew
  have hlink : f ∈ w.links := entailed_subset_links hsolve hf
  have hlater : f ∈ s.interpretation.facts :=
    (le_of_saturate hsaturate).1 (Interpretation.mem_addFacts.mpr (.inr hf))
  simp only [links, List.mem_flatMap, List.mem_map] at hlink
  obtain ⟨i, hi, p, hp, j, hj, rfl⟩ := hlink
  exact ⟨i, hi, p, hp, j, hj, hI, hlater⟩

theorem Alternates.isChain {r : Reasoning} {searches saturations : List Interpretation}
    {answer : Except Inconsistency Reasoning}
    (h : w.Alternates options r searches saturations answer) : searches.IsChain w.Relates := by
  induction h with
  | unrestricted => exact .nil
  | failed | capped | known | clash => exact .singleton _
  | further _ hsolve _ hnew hsaturate hlater ih =>
    refine List.isChain_cons.mpr ⟨fun I hI => ?_, ih⟩
    rw [hlater.head?_eq I hI]
    exact relates_of_solve hsolve hnew hsaturate

/-- The searches of a run. -/
theorem Runs.searches {searches saturations : List Interpretation}
    {answer : Except Inconsistency Reasoning} (h : w.Runs options searches saturations answer) :
    searches.length ≤ 1 + w.individuals.size ^ 2 * w.properties.size ∧
      searches.IsChain w.Relates := by
  cases h with
  | clash => exact ⟨Nat.zero_le _, .nil⟩
  | @onward s _ _ _ _ hturns =>
    refine ⟨?_, hturns.isChain⟩
    have hle := hturns.length_le
    have hlt := length_missingLinks_lt_maxPasses (w := w) s.interpretation
    rw [maxPasses, ← Nat.pow_two] at hlt
    dsimp only at hle
    omega

/-! ### Saturations -/

/-- Each saturation behind a search starts from what the ontology mentions. -/
theorem Alternates.liesIn {r : Reasoning} {searches saturations : List Interpretation}
    {answer : Except Inconsistency Reasoning}
    (h : w.Alternates options r searches saturations answer)
    (hr : r.interpretation.LiesIn w.mentioned) : ∀ I ∈ saturations, I.LiesIn w.mentioned := by
  have hadded : ∀ {I : Interpretation} {o : SearchProblem.Outcome}, I.LiesIn w.mentioned →
      (w.searchProblem I).solve options.maxModels = .ok o →
      (I.addFacts o.entailed).LiesIn w.mentioned := fun hI hsolve =>
    hI.addFacts fun _ hf => liesIn_of_mem_links (entailed_subset_links hsolve hf)
  induction h with
  | unrestricted | failed | capped | known => simp
  | clash _ hsolve =>
    intro I hI
    rw [List.mem_singleton.mp hI]
    exact hadded hr hsolve
  | further _ hsolve _ _ hsaturate _ ih =>
    intro I hI
    rcases List.mem_cons.mp hI with rfl | hI
    · exact hadded hr hsolve
    · exact ih ((hadded hr hsolve).saturateFrom w.keepsTo_mentioned (saturate_eq_ok hsaturate)) I hI

/-- **Every saturation starts from what the ontology mentions.** -/
theorem Runs.liesIn {searches saturations : List Interpretation}
    {answer : Except Inconsistency Reasoning} (h : w.Runs options searches saturations answer) :
    ∀ I ∈ saturations, I.LiesIn w.mentioned := by
  have hstart := w.liesIn_interpretation
  cases h with
  | clash =>
    intro I hI
    rw [List.mem_singleton.mp hI]
    exact hstart
  | onward hsaturate hturns =>
    intro I hI
    rcases List.mem_cons.mp hI with rfl | hI
    · exact hstart
    · have hfirst := hstart.saturateFrom w.keepsTo_mentioned (saturate_eq_ok hsaturate)
      exact hturns.liesIn hfirst I hI

/-- **Reasoning ends on every ontology and with all options.**  It is the answer of searches and
saturations in turn.  There are at most as many searches as links between two individuals, and one
more: each search but the last one leads to a link that was not known.  Propagation ends, and so
does the search behind it.  Moreover the ontology alone tells how many rounds are enough: a
saturation that is allowed more of them comes to its end before it is stopped. -/
theorem reasoning_ends (w : World) :
    (∀ options, ∃ searches saturations, w.Runs options searches saturations (w.reason options) ∧
      searches.length ≤ 1 + w.individuals.size ^ 2 * w.properties.size ∧
      searches.IsChain w.Relates) ∧
    (∀ (p : SearchProblem) ds, ∃ sweeps ≤ SearchProblem.size ds + 1,
      p.Sweeps ds sweeps (p.propagate ds)) ∧
    (∀ (p : SearchProblem) maxModels ds, p.Searches (max maxModels 1)
      ((SearchProblem.undecided ds).count true + 1) ds [] (p.firstModels (max maxModels 1) ds)
      (max maxModels 1 ≤ (p.firstModels (max maxModels 1) ds).length)) ∧
    ∃ bound, ∀ options searches saturations answer, w.Runs options searches saturations answer →
      bound < options.maxIterations → ∀ I ∈ saturations, ∀ s,
        w.saturateFrom (options.maxIterations - 1) 0 I = .ok s →
          s.isSettled = true ∧ w.saturationRound s.interpretation = .ok s.interpretation := by
  refine ⟨fun options => ?_, SearchProblem.exists_sweeps, fun p maxModels ds => ?_,
    w.entries.length, ?_⟩
  · obtain ⟨searches, saturations, hruns⟩ := exists_runs w options
    exact ⟨searches, saturations, hruns, hruns.searches⟩
  · have hsearch := SearchProblem.exists_searches (p := p)
      (Nat.lt_succ_self ((SearchProblem.undecided ds).count true)) [] (Nat.le_max_right maxModels 1)
    rwa [List.nil_append, List.length_nil, Nat.sub_zero] at hsearch
  · intro options searches saturations answer hruns hbound I hI s hs
    have hsettled := isSettled_of_length_entries_lt hbound (hruns.liesIn I hI) hs
    exact ⟨hsettled, saturationRound_of_isSettled hs hsettled⟩

end World

end Ontology
