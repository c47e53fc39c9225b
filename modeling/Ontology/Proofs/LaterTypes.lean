import Ontology.Proofs.Course

/-!
# Types that are found after a search

A search commits to what all of its solutions have in common, and the saturation that follows may
find further types.  With them a search from the same facts can have more solutions: its relations
may have more candidates, and its restrictions may be satisfied in more ways.  If they have not,
every solution of the later problem contains one of the earlier problem.

## Main definitions

* `SearchProblem.restrict` — what a model of another problem says about the variables of a problem.
* `World.KeepsCandidates` — more knowledge brings no new candidates to a problem and no new members
  to the classes in its constraints.
* `World.reasonTraced` — reasoning with a record of its searches.

## Main results

* `SearchProblem.mem_known_decideAll` — the values of a relation in a model.
* `World.KeepsCandidates.isSolution_restrict` — **a solution of the later problem is one of the
  earlier problem as far as that goes.**
* `World.reasonTraced_fst` — the record does not change the reasoning.
* `World.entailed_survives` — **what searches commit to survives the types found later, if these
  bring no new candidates.**
-/

namespace Ontology

namespace SearchProblem

variable {p : SearchProblem} {m : Model}

/-! ### Relations in a model -/

/-- A model gives an individual to a variable of the relation and the subject. -/
def Gives (p : SearchProblem) (m : Model) (r : PropertyExpression) (s x : IndividualId) : Prop :=
  ∃ v, v.relation = r ∧ v.subject = s ∧ p.Assigns m v x

theorem Assigns.about_mem {v : Variable} {x : IndividualId} (h : p.Assigns m v x) :
    v ∈ p.start.map Decision.about := by
  obtain ⟨k, hk, -⟩ := h
  rw [← List.getElem?_map] at hk
  exact List.mem_of_getElem? hk

theorem Gives.searched (hp : p.WellFormed) {r : PropertyExpression} {s x : IndividualId}
    (h : p.Gives m r s x) : r ∈ p.searched := by
  obtain ⟨v, rfl, -, hv⟩ := h
  obtain ⟨d, hd, rfl⟩ := List.mem_map.mp hv.about_mem
  exact hp.relation_mem d hd

/-- Decisions according to a model decide what the model says. -/
theorem mem_decideAll {e : Decision} :
    e ∈ decideAll p.start m ↔ ∃ (k : Nat) (x : Option IndividualId),
      p.start[k]?.map Decision.about = some e.about ∧ m[k]? = some x ∧ e.slot = .decided x := by
  rw [List.mem_iff_getElem?, decideAll]
  simp only [List.getElem?_zipWith_eq_some]
  constructor
  · rintro ⟨k, d, x, hd, hx, rfl⟩
    exact ⟨k, x, by rw [hd]; rfl, hx, rfl⟩
  · rintro ⟨k, x, hd, hx, hslot⟩
    obtain ⟨d, hd, hv⟩ := Option.map_eq_some_iff.mp hd
    refine ⟨k, d, x, hd, hx, ?_⟩
    obtain ⟨v, slot⟩ := e
    dsimp only at hv hslot
    rw [hv, hslot]

/-- Whether a value of a relation is known in a model, and whether others are possible. -/
structure Describes (p : SearchProblem) (m : Model) (r : PropertyExpression) (i : IndividualId)
    (s : Successors) : Prop where
  mem_known : ∀ y, y ∈ s.known ↔ y ∈ p.interpretation.related r i ∨
    ∃ x, y = .individual x ∧ (p.Gives m r i x ∨ p.Gives m r.reversed x i)
  possible : s.possible = []
  isOpen : s.isOpen = true ↔ r ∉ p.searched ∧ r.reversed ∉ p.searched ∧
    (p.world.assertedSuccessors p.interpretation r i).isOpen = true

theorem gives_iff_of_mem (hp : p.WellFormed) {e : Decision} {k : Nat} {z : Option IndividualId}
    (hk : p.start[k]?.map Decision.about = some e.about) (hz : m[k]? = some z)
    {x : IndividualId} : p.Gives m e.about.relation e.about.subject x ↔ z = some x := by
  constructor
  · rintro ⟨v, hrel, hsub, hv⟩
    have hve : v = e.about := by
      obtain ⟨d, hd, rfl⟩ := List.mem_map.mp hv.about_mem
      obtain ⟨d', hd', hde⟩ := Option.map_eq_some_iff.mp hk
      have hdist := hp.isDistinct_eq d hd d' (List.mem_of_getElem? hd') (by rw [hrel, hde])
      rw [hde] at hdist
      cases d with
      | mk about slot =>
        cases about
        cases e with
        | mk about' slot' =>
          cases about'
          simp_all
    obtain ⟨j, hj, hx⟩ := hv
    rw [hve] at hj
    rw [hp.place_inj hj hk, hz] at hx
    exact Option.some.inj hx
  · rintro rfl
    exact ⟨e.about, rfl, rfl, k, hk, hz⟩

theorem mem_turnedSuccessors {known : List Value} {r : PropertyExpression} {i : IndividualId}
    {y : Value} :
    y ∈ (turnedSuccessors known ((decideAll p.start m).filter (·.about.relation = r)) i).known ↔
      y ∈ known ∨ ∃ x, y = .individual x ∧ p.Gives m r x i := by
  simp only [turnedSuccessors, List.mem_append, List.mem_filterMap, List.mem_filter,
    decide_eq_true_eq]
  refine or_congr Iff.rfl ?_
  constructor
  · rintro ⟨e, ⟨he, rfl⟩, hy⟩
    split at hy
    · next hslot =>
      obtain ⟨k, z, hk, hz, hslot'⟩ := mem_decideAll.mp he
      rw [hslot, Slot.decided.injEq] at hslot'
      exact ⟨_, (Option.some.inj hy).symm, e.about, rfl, rfl, k, hk, hslot' ▸ hz⟩
    · simp at hy
  · rintro ⟨_, rfl, v, rfl, rfl, k, hk, hz⟩
    exact ⟨⟨v, .decided (some i)⟩, ⟨mem_decideAll.mpr ⟨k, some i, hk, hz, rfl⟩, rfl⟩, if_pos rfl⟩

theorem possible_turnedSuccessors {known : List Value} {r : PropertyExpression}
    {i : IndividualId} :
    (turnedSuccessors known ((decideAll p.start m).filter (·.about.relation = r)) i).possible
      = [] := by
  simp only [turnedSuccessors, List.filterMap_eq_nil_iff, List.mem_filter]
  rintro e ⟨he, -⟩
  obtain ⟨k, z, -, -, hslot⟩ := mem_decideAll.mp he
  simp [hslot, Slot.isUndecided]

/-- **The values of a relation in a model** are those that are known and those that the model gives
to its variables, in either direction. -/
theorem describes_decideAll (hp : p.WellFormed) (r : PropertyExpression) (i : IndividualId) :
    p.Describes m r i (p.relationSuccessors (decideAll p.start m) r i) := by
  simp only [relationSuccessors]
  cases hfind : (decideAll p.start m).find?
      fun d => d.about.relation = r ∧ d.about.subject = i with
  | some e =>
    -- the values are decided by a variable
    obtain ⟨k, z, hk, hz, hslot⟩ := mem_decideAll.mp (List.mem_of_find?_eq_some hfind)
    obtain ⟨rfl, rfl⟩ : e.about.relation = r ∧ e.about.subject = i := by
      simpa using List.find?_some hfind
    have hr : e.about.relation ∈ p.searched := by
      obtain ⟨d, hd, hde⟩ := Option.map_eq_some_iff.mp hk
      rw [← hde]
      exact hp.relation_mem d (List.mem_of_getElem? hd)
    have hrev : ∀ x, ¬p.Gives m e.about.relation.reversed x e.about.subject :=
      fun x h => hp.reversed_notMem _ hr (h.searched hp)
    dsimp only
    rw [hslot]
    refine ⟨fun y => ?_, rfl, by simp [hr]⟩
    simp only [gives_iff_of_mem hp hk hz, hrev, or_false, List.mem_append, Option.mem_toList,
      Option.map_eq_some_iff]
    exact or_congr Iff.rfl (exists_congr fun x => by rw [and_comm, eq_comm])
  | none =>
    have hgives : ∀ x, ¬p.Gives m r i x := by
      rintro x ⟨v, hrel, hsub, k, hk, hx⟩
      have := List.find?_eq_none.mp hfind ⟨v, .decided (some x)⟩
        (mem_decideAll.mpr ⟨k, some x, hk, hx, rfl⟩)
      simp [hrel, hsub] at this
    dsimp only
    by_cases hr : r ∈ p.searched
    · have hrev : ∀ x, ¬p.Gives m r.reversed x i :=
        fun x h => hp.reversed_notMem _ hr (h.searched hp)
      rw [if_pos hr]
      exact ⟨by simp [hgives, hrev], rfl, by simp [hr]⟩
    rw [if_neg hr]
    by_cases hr' : r.reversed ∈ p.searched
    · -- the values are decided by the variables of the inverse relation
      rw [if_pos hr']
      refine ⟨fun y => ?_, possible_turnedSuccessors, by simp [hr', turnedSuccessors]⟩
      rw [mem_turnedSuccessors]
      simp [hgives]
    · have hrev : ∀ x, ¬p.Gives m r.reversed x i := fun x h => hr' (h.searched hp)
      rw [if_neg hr']
      exact ⟨by simp [hgives, hrev, World.assertedSuccessors], rfl, by simp [hr, hr']⟩

/-- What is described alike in two problems is known alike. -/
theorem Describes.approximates {q : SearchProblem} {m' : Model} {r : PropertyExpression}
    {i : IndividualId} {s t : Successors} (hs : p.Describes m r i s) (ht : q.Describes m' r i t)
    (hasserted : q.world.assertedSuccessors q.interpretation r i
      = p.world.assertedSuccessors p.interpretation r i)
    (hsearched : ∀ r', r'.property = r.property → (r' ∈ q.searched ↔ r' ∈ p.searched))
    (hgives : ∀ r', r'.property = r.property → ∀ s x, p.Gives m r' s x ↔ q.Gives m' r' s x) :
    s.Approximates t := by
  have hrelated : q.interpretation.related r i = p.interpretation.related r i :=
    congrArg Successors.known hasserted
  have hknown : ∀ y, y ∈ t.known ↔ y ∈ s.known := by
    intro y
    simp only [hs.mem_known, ht.mem_known, hrelated, hgives r rfl,
      hgives r.reversed r.property_reversed]
  refine ⟨fun y hy => (hknown y).mpr hy, ?_, fun _ y hy => Or.inl ((hknown y).mp hy), ?_⟩
  · rw [Bool.eq_false_iff, Bool.eq_false_iff, Ne, Ne, hs.isOpen, ht.isOpen, hasserted,
      hsearched r rfl, hsearched r.reversed r.property_reversed]
    exact id
  · rw [ht.possible]
    simp

/-! ### Models of another problem -/

/-- The choice of a model for a variable; none where the problem does not have the variable. -/
def choice (p : SearchProblem) (m : Model) (v : Variable) : Option IndividualId :=
  ((p.start.zip m).find? (·.1.about = v)).bind Prod.snd

theorem choice_eq_some_iff (hp : p.WellFormed) {v : Variable} {x : IndividualId} :
    p.choice m v = some x ↔ p.Assigns m v x := by
  rw [choice, Option.bind_eq_some_iff]
  constructor
  · rintro ⟨e, he, hx⟩
    obtain ⟨k, hk⟩ := List.mem_iff_getElem?.mp (List.mem_of_find?_eq_some he)
    obtain ⟨hd, hmk⟩ := List.getElem?_zip_eq_some.mp hk
    have hv : e.1.about = v := by simpa using List.find?_some he
    exact ⟨k, by rw [hd, Option.map_some, hv], by rw [hmk, hx]⟩
  · rintro ⟨k, hk, hx⟩
    obtain ⟨d, hd, hdv⟩ := Option.map_eq_some_iff.mp hk
    have hmem : (d, some x) ∈ p.start.zip m :=
      List.mem_of_getElem? (List.getElem?_zip_eq_some.mpr ⟨hd, hx⟩)
    cases hfind : (p.start.zip m).find? (·.1.about = v) with
    | none => exact absurd (List.find?_eq_none.mp hfind _ hmem) (by simp [hdv])
    | some e =>
      refine ⟨e, rfl, ?_⟩
      obtain ⟨j, hj⟩ := List.mem_iff_getElem?.mp (List.mem_of_find?_eq_some hfind)
      obtain ⟨hd', hmj⟩ := List.getElem?_zip_eq_some.mp hj
      have hv : e.1.about = v := by simpa using List.find?_some hfind
      have hjk : j = k := hp.place_inj (by rw [hd', Option.map_some, hv]) hk
      rw [hjk, hx] at hmj
      exact (Option.some.inj hmj).symm

/-- What a model of another problem says about the variables of a problem. -/
def restrict (p q : SearchProblem) (m : Model) : Model :=
  p.start.map fun d => q.choice m d.about

theorem assigns_restrict {q : SearchProblem} (hq : q.WellFormed) {v : Variable}
    {x : IndividualId} :
    p.Assigns (p.restrict q m) v x ↔ v ∈ p.start.map Decision.about ∧ q.Assigns m v x := by
  rw [← choice_eq_some_iff hq]
  constructor
  · rintro ⟨k, hk, hx⟩
    obtain ⟨d, hd, rfl⟩ := Option.map_eq_some_iff.mp hk
    rw [restrict, List.getElem?_map, hd] at hx
    exact ⟨List.mem_map_of_mem (List.mem_of_getElem? hd), Option.some.inj hx⟩
  · rintro ⟨hv, hx⟩
    obtain ⟨d, hd, rfl⟩ := List.mem_map.mp hv
    obtain ⟨k, hk⟩ := List.mem_iff_getElem?.mp hd
    exact ⟨k, by rw [hk]; rfl, by rw [restrict, List.getElem?_map, hk, Option.map_some, hx]⟩

end SearchProblem

namespace World

variable {w : World} {I J : Interpretation}

/-! ### No new candidates -/

/-- More knowledge brings no new candidates to the relations that a problem searches, and no new
members to the classes that its constraints name. -/
structure KeepsCandidates (w : World) (I J : Interpretation) : Prop where
  subjects : ∀ r ∈ (w.searchProblem I).searched, w.openSubjects J r ⊆ w.openSubjects I r
  values : ∀ r ∈ (w.searchProblem I).searched, w.possibleValues J r ⊆ w.possibleValues I r
  members : ∀ c ∈ w.constraints I, ∀ k ∈ c.restriction.toExpression.namedClasses, ∀ i,
    (i, k) ∈ J.types → (i, k) ∈ I.types

theorem related_congr (h : J.facts = I.facts) (r : PropertyExpression) (i : IndividualId) :
    J.related r i = I.related r i := by
  cases r <;> simp only [Interpretation.related, Interpretation.values, Interpretation.subjects, h]

theorem assertedSuccessors_congr (h : J.facts = I.facts) (r : PropertyExpression)
    (i : IndividualId) : w.assertedSuccessors J r i = w.assertedSuccessors I r i := by
  have hclosed : ∀ p, J.isClosed p i = I.isClosed p i := by
    intro p
    simp only [Interpretation.isClosed, Interpretation.values, h]
  simp only [assertedSuccessors, isComplete, related_congr h, hclosed]

/-- Of the properties that a constraint reads the same relations are searched later. -/
theorem mem_searched_iff (hIJ : I ≤ J) {c : Constraint} (hc : c ∈ w.constraints I)
    {r : PropertyExpression} (hr : r.property ∈ c.reads) :
    r ∈ (w.searchProblem J).searched ↔ r ∈ (w.searchProblem I).searched := by
  simp only [searchProblem, mem_searchedRelations]
  have hI : ∃ c ∈ w.constraints I, r.property ∈ c.reads := ⟨c, hc, hr⟩
  have hJ : ∃ c ∈ w.constraints J, r.property ∈ c.reads := ⟨c, constraints_mono hIJ hc, hr⟩
  simp only [hI, hJ]

theorem mem_variables {v : Variable} : v ∈ (w.searchProblem I).start.map Decision.about ↔
    v.relation ∈ (w.searchProblem I).searched ∧ v.subject ∈ w.openSubjects I v.relation ∧
      v.isDistinct = w.isDistinct v.relation := by
  constructor
  · intro hv
    obtain ⟨d, hd, rfl⟩ := List.mem_map.mp hv
    obtain ⟨r, hr, s, hs, rfl⟩ := mem_start.mp hd
    exact ⟨hr, hs, rfl⟩
  · rintro ⟨hr, hs, hdist⟩
    refine List.mem_map.mpr ⟨_, mem_start.mpr ⟨_, hr, _, hs, rfl⟩, ?_⟩
    cases v
    simp_all

namespace KeepsCandidates

/-- Relations that a constraint reads have the same values in a solution and in its restriction. -/
theorem gives_restrict (h : w.KeepsCandidates I J) (hIJ : I ≤ J) {c : Constraint}
    (hc : c ∈ w.constraints I) {r : PropertyExpression} (hr : r.property ∈ c.reads)
    {m : SearchProblem.Model} {s x : IndividualId} :
    (w.searchProblem I).Gives ((w.searchProblem I).restrict (w.searchProblem J) m) r s x ↔
      (w.searchProblem J).Gives m r s x := by
  have hq := w.searchProblem_wellFormed J
  constructor
  · rintro ⟨v, hrel, hsub, hv⟩
    exact ⟨v, hrel, hsub, ((SearchProblem.assigns_restrict hq).mp hv).2⟩
  · intro hgives
    have hsearched := (mem_searched_iff hIJ hc hr).mp (hgives.searched hq)
    obtain ⟨v, rfl, rfl, hv⟩ := hgives
    obtain ⟨-, hs, hdist⟩ := mem_variables.mp hv.about_mem
    refine ⟨v, rfl, rfl, (SearchProblem.assigns_restrict hq).mpr ⟨mem_variables.mpr ?_, hv⟩⟩
    exact ⟨hsearched, h.subjects _ hsearched hs, hdist⟩

/-- What a constraint comes to in the restriction of a solution it comes to in the solution. -/
theorem evaluate_restrict (h : w.KeepsCandidates I J) (hIJ : I ≤ J) (hfacts : J.facts = I.facts)
    {c : Constraint} (hc : c ∈ w.constraints I) {m : SearchProblem.Model} :
    ((w.searchProblem I).evaluate (SearchProblem.decideAll (w.searchProblem I).start
      ((w.searchProblem I).restrict (w.searchProblem J) m)) c).Approximates
        ((w.searchProblem J).evaluate (SearchProblem.decideAll (w.searchProblem J).start m) c) := by
  have hp := w.searchProblem_wellFormed I
  have hq := w.searchProblem_wellFormed J
  refine View.member_approximates _ _ ⟨fun k hk i => ?_, fun q hq' i => ?_⟩
  · rw [Bool.eq_iff_iff]
    simp only [SearchProblem.view, searchProblem, Interpretation.hasType_iff]
    exact ⟨fun hi => hIJ.2 hi, h.members c hc k hk i⟩
  · have hreads : ∀ r : PropertyExpression, r.property = (w.relation q).property →
        r.property ∈ c.reads := by
      intro r hr
      rw [hr]
      exact hp.reads c hc q hq'
    exact (SearchProblem.describes_decideAll hp _ i).approximates
      (SearchProblem.describes_decideAll hq _ i) (assertedSuccessors_congr hfacts _ i)
      (fun r hr => mem_searched_iff hIJ hc (hreads r hr))
      (fun r hr s x => h.gives_restrict hIJ hc (hreads r hr))

/-- **A solution of the later problem is one of the earlier problem as far as that goes.** -/
theorem isSolution_restrict (h : w.KeepsCandidates I J) (hIJ : I ≤ J) (hfacts : J.facts = I.facts)
    {m : SearchProblem.Model} (hm : (w.searchProblem J).IsSolution m) :
    (w.searchProblem I).IsSolution
      ((w.searchProblem I).restrict (w.searchProblem J) m) where
  fits := by
    rw [SearchProblem.restrict, SearchProblem.Fits, List.forall₂_map_right_iff,
      List.forall₂_same]
    intro d hd
    obtain ⟨r, hr, s, hs, rfl⟩ := mem_start.mp hd
    cases hx : (w.searchProblem J).choice m ⟨r, s, w.isDistinct r⟩ with
    | none => simp [Slot.options]
    | some x =>
      have := (SearchProblem.choice_eq_some_iff (w.searchProblem_wellFormed J)).mp hx
      obtain ⟨k, hk, hmk⟩ := this
      obtain ⟨e, he, hev⟩ := Option.map_eq_some_iff.mp hk
      obtain ⟨r', -, s', -, rfl⟩ := mem_start.mp (List.mem_of_getElem? he)
      obtain ⟨rfl, rfl, -⟩ := by simpa using hev
      have hvalue : x ∈ w.possibleValues J r' := by
        simpa [Slot.options] using hm.fits.mem he hmk
      simpa [Slot.options] using h.values r' hr hvalue
  distinct := by
    intro v v' x hdist hrel hv hv'
    have hq := w.searchProblem_wellFormed J
    exact hm.distinct v v' x hdist hrel ((SearchProblem.assigns_restrict hq).mp hv).2
      ((SearchProblem.assigns_restrict hq).mp hv').2
  admitted := by
    intro c hc hfails
    refine hm.admitted c (constraints_mono hIJ hc) ?_
    rw [h.evaluate_restrict hIJ hfacts hc (by rw [hfails]; simp), hfails]

end KeepsCandidates

/-- **What a problem commits to survives if there are no new candidates.** -/
theorem KeepsCandidates.assigns_of_isCommon (h : w.KeepsCandidates I J) (hIJ : I ≤ J)
    (hfacts : J.facts = I.facts) {v : Variable} {x : IndividualId}
    (hv : (w.searchProblem I).IsCommon v x) {m : SearchProblem.Model}
    (hm : (w.searchProblem J).IsSolution m) : (w.searchProblem J).Assigns m v x :=
  ((SearchProblem.assigns_restrict (w.searchProblem_wellFormed J)).mp
    (hv.2 _ (h.isSolution_restrict hIJ hfacts hm))).2

end World

/-! ### The searches of a run -/

/-- A search that was not stopped early: what was known before it, and what it commits to. -/
structure SearchPass where
  start : Interpretation
  entailed : List Fact
  deriving DecidableEq, Repr

namespace World

variable {w : World}

/-- Adds what all models have in common and what follows from it, with a record of the
searches. -/
def addCommonFactsTraced (w : World) (options : InferenceOptions) :
    Nat → Reasoning → Except Inconsistency (Reasoning × List SearchPass)
  | 0, r => .ok (r, [])
  | passes + 1, r => do
    let problem := w.searchProblem r.interpretation
    if problem.constraints.isEmpty then return (r, [])
    else
      let outcome ← problem.solve options.maxModels
      if outcome.isCapped then
        return ({ r with models := outcome.models, isExhaustive := false }, [])
      else
        let next := r.interpretation.addFacts outcome.entailed
        let pass : SearchPass := ⟨r.interpretation, outcome.entailed⟩
        if next.size = r.interpretation.size then
          return ({ r with models := outcome.models }, [pass])
        else
          let s ← w.saturate options.maxIterations next
          let (final, later) ← w.addCommonFactsTraced options passes {
            interpretation := s.interpretation
            models := outcome.models
            rounds := r.rounds + s.rounds }
          return (final, pass :: later)

/-- What is known when the models add nothing any more, with a record of the searches. -/
def reasonTraced (w : World) (options : InferenceOptions) :
    Except Inconsistency (Reasoning × List SearchPass) := do
  let s ← w.saturate options.maxIterations w.interpretation
  w.addCommonFactsTraced options w.maxPasses
    { interpretation := s.interpretation, rounds := s.rounds }

theorem addCommonFactsTraced_fst (w : World) (options : InferenceOptions) (passes : Nat)
    (r : Reasoning) :
    (w.addCommonFactsTraced options passes r).map Prod.fst = w.addCommonFacts options passes r := by
  induction passes generalizing r with
  | zero => rfl
  | succ passes ih =>
    rw [addCommonFactsTraced, addCommonFacts]
    split
    · rfl
    cases (w.searchProblem r.interpretation).solve options.maxModels with
    | error e => rfl
    | ok outcome =>
      simp only [bind, Except.bind]
      split
      · rfl
      split
      · rfl
      cases w.saturate options.maxIterations
          (r.interpretation.addFacts outcome.entailed) with
      | error e => rfl
      | ok s =>
        dsimp only
        rw [← ih]
        cases w.addCommonFactsTraced options passes _ <;> rfl

/-- The record does not change the reasoning. -/
theorem reasonTraced_fst (w : World) (options : InferenceOptions) :
    (w.reasonTraced options).map Prod.fst = w.reason options := by
  rw [reasonTraced, reason]
  cases w.saturate options.maxIterations w.interpretation with
  | error e => rfl
  | ok s => exact w.addCommonFactsTraced_fst options w.maxPasses _

/-- The first of several searches, and what it leaves to the others. -/
theorem addCommonFactsTraced_eq_ok {options : InferenceOptions} {passes : Nat} {r final : Reasoning}
    {record : List SearchPass}
    (h : w.addCommonFactsTraced options (passes + 1) r = .ok (final, record)) :
    (record = [] ∧ final.interpretation = r.interpretation) ∨
    ∃ outcome, (w.searchProblem r.interpretation).solve options.maxModels = .ok outcome ∧
      outcome.isCapped = false ∧
      ((record = [⟨r.interpretation, outcome.entailed⟩] ∧
          final.interpretation = r.interpretation) ∨
        ∃ s later models rounds,
          w.saturate options.maxIterations (r.interpretation.addFacts outcome.entailed) = .ok s ∧
          w.addCommonFactsTraced options passes ⟨s.interpretation, models, true, rounds⟩
            = .ok (final, later) ∧
          record = ⟨r.interpretation, outcome.entailed⟩ :: later) := by
  rw [addCommonFactsTraced] at h
  split at h
  · obtain ⟨rfl, rfl⟩ := by simpa [pure, Except.pure] using h
    exact Or.inl ⟨rfl, rfl⟩
  obtain ⟨outcome, houtcome, h⟩ := exists_of_bind_eq_ok h
  split at h
  · obtain ⟨rfl, rfl⟩ := by simpa [pure, Except.pure] using h
    exact Or.inl ⟨rfl, rfl⟩
  next hcapped =>
  refine Or.inr ⟨outcome, houtcome, by simpa using hcapped, ?_⟩
  dsimp only at h
  split at h
  · obtain ⟨rfl, rfl⟩ := by simpa [pure, Except.pure] using h
    exact Or.inl ⟨rfl, rfl⟩
  obtain ⟨s, hs, h⟩ := exists_of_bind_eq_ok h
  obtain ⟨⟨_, later⟩, hlater, h⟩ := exists_of_bind_eq_ok h
  obtain ⟨rfl, rfl⟩ := by simpa [pure, Except.pure] using h
  exact Or.inr ⟨s, later, _, _, hs, hlater, rfl⟩

/-- All that is known before a search is known in the end, and a search commits to what its
solutions have in common. -/
theorem addCommonFactsTraced_spec {options : InferenceOptions} {passes : Nat}
    {r final : Reasoning} {record : List SearchPass}
    (h : w.addCommonFactsTraced options passes r = .ok (final, record)) :
    r.interpretation ≤ final.interpretation ∧
      ∀ pass ∈ record, pass.start ≤ final.interpretation ∧
        ∀ f ∈ pass.entailed, ∃ v x, (w.searchProblem pass.start).IsCommon v x ∧
          f = SearchProblem.factOf v x := by
  induction passes generalizing r record with
  | zero =>
    obtain ⟨rfl, rfl⟩ := by simpa [addCommonFactsTraced] using h
    exact ⟨le_refl _, by simp⟩
  | succ passes ih =>
    rcases addCommonFactsTraced_eq_ok h with ⟨rfl, hfinal⟩ | ⟨outcome, hsolve, hcapped, hrest⟩
    · exact ⟨hfinal.ge, by simp⟩
    have hcommon : ∀ f ∈ outcome.entailed, ∃ v x,
        (w.searchProblem r.interpretation).IsCommon v x ∧ f = SearchProblem.factOf v x :=
      fun f => (SearchProblem.mem_entailed (w.searchProblem_wellFormed _) hsolve hcapped).mp
    rcases hrest with ⟨rfl, hfinal⟩ | ⟨s, later, models, rounds, hs, hlater, rfl⟩
    · refine ⟨hfinal.ge, fun pass hpass => ?_⟩
      rw [List.mem_singleton.mp hpass]
      exact ⟨hfinal.ge, hcommon⟩
    · obtain ⟨hle, hspec⟩ := ih hlater
      have hstart : r.interpretation ≤ final.interpretation :=
        le_trans (Interpretation.extends_addFacts _ _).le
          (le_trans (extends_saturateFrom (saturate_eq_ok hs)).le hle)
      refine ⟨hstart, fun pass hpass => ?_⟩
      rcases List.mem_cons.mp hpass with rfl | hpass
      · exact ⟨hstart, hcommon⟩
      · exact hspec pass hpass

/-- **What searches commit to survives the types found later, if these bring no new candidates.**
Reasoning that succeeds is made of searches; with the facts that one of them started from and the
types known in the end, all solutions contain what it committed to, unless there are new candidates
for its relations or new members of the classes in its constraints. -/
theorem entailed_survives {options : InferenceOptions} {r : Reasoning}
    (h : w.reason options = .ok r) :
    ∃ record, w.reasonTraced options = .ok (r, record) ∧ ∀ pass ∈ record,
      let later : Interpretation := { pass.start with types := r.interpretation.types }
      (∀ f ∈ pass.entailed, ∃ v x, (w.searchProblem pass.start).IsCommon v x ∧
        f = SearchProblem.factOf v x) ∧
      (w.KeepsCandidates pass.start later → ∀ f ∈ pass.entailed, ∃ v x,
        f = SearchProblem.factOf v x ∧
        ∀ m, (w.searchProblem later).IsSolution m → (w.searchProblem later).Assigns m v x) := by
  rw [← reasonTraced_fst] at h
  cases hrun : w.reasonTraced options with
  | error e =>
    rw [hrun] at h
    simp [Except.map] at h
  | ok result =>
    obtain ⟨final, record⟩ := result
    rw [hrun] at h
    obtain rfl : final = r := by simpa [Except.map] using h
    refine ⟨record, rfl, fun pass hpass => ?_⟩
    rw [reasonTraced] at hrun
    obtain ⟨s, -, hrun⟩ := exists_of_bind_eq_ok hrun
    obtain ⟨hle, hcommon⟩ := (addCommonFactsTraced_spec hrun).2 pass hpass
    refine ⟨hcommon, fun hkeeps f hf => ?_⟩
    obtain ⟨v, x, hv, rfl⟩ := hcommon f hf
    exact ⟨v, x, rfl, fun m hm => hkeeps.assigns_of_isCommon ⟨fun f hf => hf, hle.2⟩ rfl hv hm⟩

/-! ### Greetings -/

/-- The first individual satisfies a restriction, the second one is a guest, and a rule derives a
type from each greeting. -/
def greetings (domain range restriction : ClassExpression) (derived : Atom) : World where
  iri := ""
  classes := #[{ name := "Guest" }, { name := "Host" }]
  properties := #[{
    name := "greets"
    kind := .object
    domain := [domain]
    range := .classes [range]
    characteristics := { functional := true } }]
  individuals := #[
    { name := "s", isA := [.thing, restriction] },
    { name := "a", isA := [.named ⟨0⟩] }]
  rules := #[{
    name := "greeting"
    source := ""
    body := [.fact ⟨0⟩ (.variable "x") (.variable "y")]
    head := [derived] }]

/-- The first individual has to greet, and only guests are greeted; who greets belongs to a
class. -/
def greetGuest (c : ClassId) : World :=
  greetings .thing (.named ⟨0⟩) (.restriction (.named ⟨0⟩) .some (.expression .thing))
    (.type c (.variable "x"))

/-- The first individual has to greet a guest; who greets is a guest. -/
def greetSomeGuest : World :=
  greetings .thing .thing (.restriction (.named ⟨0⟩) .some (.expression (.named ⟨0⟩)))
    (.type ⟨0⟩ (.variable "x"))

/-- The first individual has to be greeted, and only guests greet; who is greeted is a guest. -/
def greetedByGuest : World :=
  greetings (.named ⟨0⟩) .thing (.restriction (.inverse ⟨0⟩) .some (.expression .thing))
    (.type ⟨0⟩ (.variable "y"))

/-- The first individual greets the second one. -/
def greeting : Fact := ⟨⟨0⟩, ⟨0⟩, .individual ⟨1⟩⟩

/-- The second individual greets the first one. -/
def greetingBack : Fact := ⟨⟨1⟩, ⟨0⟩, .individual ⟨0⟩⟩

/-- What is known before the first search. -/
def beforeGreeting : Interpretation where
  types := [(⟨1⟩, ⟨0⟩)]

/-- What is known in the end. -/
def afterGreeting (f : Fact) (c : ClassId) : Interpretation where
  facts := [f]
  types := [(⟨1⟩, ⟨0⟩), (⟨0⟩, c)]

/-- The facts before the first search with the types known in the end. -/
def greetingTypes (c : ClassId) : Interpretation where
  types := [(⟨1⟩, ⟨0⟩), (⟨0⟩, c)]

/-- A greeting survives if who greets belongs to a class of its own. -/
theorem greeting_survives : ∃ v x, greeting = SearchProblem.factOf v x ∧
    ∀ m, ((greetGuest ⟨1⟩).searchProblem (greetingTypes ⟨1⟩)).IsSolution m →
      ((greetGuest ⟨1⟩).searchProblem (greetingTypes ⟨1⟩)).Assigns m v x := by
  have hrun : (greetGuest ⟨1⟩).reasonTraced {} = .ok (⟨afterGreeting greeting ⟨1⟩, 2, true, 3⟩,
      [⟨beforeGreeting, [greeting]⟩, ⟨afterGreeting greeting ⟨1⟩, []⟩]) := by
    decide +kernel
  have hreason : (greetGuest ⟨1⟩).reason {}
      = .ok ⟨afterGreeting greeting ⟨1⟩, 2, true, 3⟩ := by
    rw [← reasonTraced_fst, hrun]
    rfl
  obtain ⟨record, hrecord, hsurvives⟩ := entailed_survives hreason
  rw [hrun, Except.ok.injEq, Prod.mk.injEq] at hrecord
  rw [← hrecord.2] at hsurvives
  have hkeeps : (greetGuest ⟨1⟩).KeepsCandidates beforeGreeting (greetingTypes ⟨1⟩) := by
    refine ⟨by decide, by decide, ?_⟩
    have hnone : ∀ c ∈ (greetGuest ⟨1⟩).constraints beforeGreeting,
        c.restriction.toExpression.namedClasses = [] := by decide
    intro c hc k hk
    rw [hnone c hc] at hk
    simp at hk
  exact (hsurvives _ List.mem_cons_self).2 hkeeps _ List.mem_cons_self

/-- A fact is not common to all solutions if the first individual can greet itself instead. -/
theorem not_common_of_counts {p : SearchProblem} (hp : p.WellFormed) {f : Fact}
    (hstart : p.start.map Decision.about
      = [⟨.named ⟨0⟩, ⟨0⟩, false⟩, ⟨.named ⟨0⟩, ⟨1⟩, false⟩])
    (hcounts : p.Counts 64 [some ⟨0⟩, none]) (hf : f ≠ ⟨⟨0⟩, ⟨0⟩, .individual ⟨0⟩⟩) :
    ¬∃ v x, f = SearchProblem.factOf v x ∧ ∀ m, p.IsSolution m → p.Assigns m v x := by
  rintro ⟨v, x, hfact, hall⟩
  obtain ⟨k, hk, hx⟩ := hall _ ((SearchProblem.isSolution_iff_counts hp).mpr ⟨64, hcounts⟩)
  rw [← List.getElem?_map, hstart] at hk
  rcases k with _ | _ | k
  · rw [← Option.some.inj hk, ← Option.some.inj (Option.some.inj hx)] at hfact
    exact hf hfact
  · simp at hx
  · simp at hx

/-- **A new guest calls a greeting into question**, be it as someone else to greet, as someone else
who satisfies the restriction, or as someone else who greets. -/
theorem greeting_not_common :
    (greetGuest ⟨0⟩).reasonTraced {} = .ok (⟨afterGreeting greeting ⟨0⟩, 3, true, 3⟩,
        [⟨beforeGreeting, [greeting]⟩, ⟨afterGreeting greeting ⟨0⟩, []⟩]) ∧
      (¬∃ v x, greeting = SearchProblem.factOf v x ∧
        ∀ m, ((greetGuest ⟨0⟩).searchProblem (greetingTypes ⟨0⟩)).IsSolution m →
          ((greetGuest ⟨0⟩).searchProblem (greetingTypes ⟨0⟩)).Assigns m v x) ∧
    greetSomeGuest.reasonTraced {} = .ok (⟨afterGreeting greeting ⟨0⟩, 3, true, 3⟩,
        [⟨beforeGreeting, [greeting]⟩, ⟨afterGreeting greeting ⟨0⟩, []⟩]) ∧
      (¬∃ v x, greeting = SearchProblem.factOf v x ∧
        ∀ m, (greetSomeGuest.searchProblem (greetingTypes ⟨0⟩)).IsSolution m →
          (greetSomeGuest.searchProblem (greetingTypes ⟨0⟩)).Assigns m v x) ∧
    greetedByGuest.reasonTraced {} = .ok (⟨afterGreeting greetingBack ⟨0⟩, 3, true, 3⟩,
        [⟨beforeGreeting, [greetingBack]⟩, ⟨afterGreeting greetingBack ⟨0⟩, []⟩]) ∧
      ¬∃ v x, greetingBack = SearchProblem.factOf v x ∧
        ∀ m, (greetedByGuest.searchProblem (greetingTypes ⟨0⟩)).IsSolution m →
          (greetedByGuest.searchProblem (greetingTypes ⟨0⟩)).Assigns m v x := by
  refine ⟨by decide +kernel, ?_, by decide +kernel, ?_, by decide +kernel, ?_⟩
  · refine not_common_of_counts (searchProblem_wellFormed _ _) (by decide) ?_ (by decide)
    exact ⟨⟨6, false, []⟩, by decide +kernel, by decide +kernel, by decide +kernel⟩
  · refine not_common_of_counts (searchProblem_wellFormed _ _) (by decide) ?_ (by decide)
    exact ⟨⟨6, false, []⟩, by decide +kernel, by decide +kernel, by decide +kernel⟩
  · refine not_common_of_counts (searchProblem_wellFormed _ _) (by decide) ?_ (by decide)
    exact ⟨⟨5, false, []⟩, by decide +kernel, by decide +kernel, by decide +kernel⟩

end World

end Ontology
