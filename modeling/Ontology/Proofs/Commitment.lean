import Ontology.Proofs.Grounded
import Ontology.Proofs.LaterTypes

/-!
# Searching again after a commitment

A search adds the facts that all of its solutions have in common.  A search from there sets up
another problem: the variables that were decided are gone, individuals that were given away are no
candidates any more for relations whose values are distinct, and the values of the other variables
are read next to facts that were choices before.  Nevertheless it is the same problem for the
variables that are left.

This relies on the domains and ranges of a loaded ontology, which do not read any values.

## Main definitions

* `World.EndsArePlain` — no domain and no range of an ontology reads a property.
* `SearchProblem.Commits` — what all solutions say about a relation.
* `World.Committed` — an interpretation with the facts that all solutions have in common, and with
  nothing else that is new.
* `SearchProblem.Recovers`, `SearchProblem.complete` — a model that says what a model of the later
  problem says, and what is common to all solutions.

## Main results

* `World.IsLoaded.endsArePlain` — domains and ranges of loaded ontologies read no values.
* `World.Committed.mem_variables_iff` — the variables that remain are those without a common value.
* `World.Committed.evaluate_eq` — a constraint comes to the same in a model and in the one that it
  recovers.
* `World.Committed.isSolution_restrict`, `World.Committed.isSolution_complete` — solutions become
  solutions in both directions.
* `World.committed_exact` — **a commitment loses no solution and leaves nothing to commit to.**
-/

namespace Ontology

/-! ### Domains and ranges of loaded ontologies -/

/-- The domains and the ranges of an ontology read no properties. -/
def World.EndsArePlain (w : World) : Prop :=
  ∀ p, ∀ e ∈ (w.getProperty p).ends, e.readProperties = []

/-- What is no property has no domain but the class of all things. -/
theorem World.readProperties_of_property?_eq_none {w : World} {p : PropertyId}
    {e : ClassExpression} (hp : w.property? p = none) (he : e ∈ (w.getProperty p).ends) :
    e.readProperties = [] := by
  rw [getProperty, hp] at he
  have hthing : e = .thing := by simpa [Property.ends, Property.rangeClasses] using he
  rw [hthing, ClassExpression.readProperties]

namespace LoadSession

open World

variable {names : List (String × String)} {s s' : LoadSession}

/-- A step adds no domain and no range that reads a property. -/
theorem Step.endsArePlain (h : s.Step names s') (hs : s.world.EndsArePlain) :
    s'.world.EndsArePlain := by
  intro p e he
  by_cases hnew : s.world.Has (.property p)
  · rw [h.isExtendedBy.getProperty hnew] at he
    exact hs p e he
  cases hd : s'.world.property? p with
  | none => exact readProperties_of_property?_eq_none hd he
  | some d =>
    obtain ⟨q, iri, hadmits, rfl⟩ := h.property_new hd hnew
    rw [World.getProperty_eq hd] at he
    -- the ends of an inverse are those of a property that was there before
    rcases hadmits.ends q rfl e he with hplain | ⟨q', hq'⟩
    · exact hplain
    · exact hs q' e hq'

theorem LeadsTo.endsArePlain (h : s.LeadsTo names s') (hs : s.world.EndsArePlain) :
    s'.world.EndsArePlain := by
  induction h with
  | refl => exact hs
  | tail _ hstep ih => exact hstep.endsArePlain ih

end LoadSession

/-- Domains and ranges of loaded ontologies read no values. -/
theorem World.IsLoaded.endsArePlain {w : World} (h : w.IsLoaded) : w.EndsArePlain := by
  obtain ⟨settings, folder, base, document, h⟩ := h
  obtain ⟨iri, s, rfl, hs⟩ := leadsTo_of_load h
  exact hs.endsArePlain fun p e he => readProperties_of_property?_eq_none rfl he

/-! ### What a problem commits to -/

namespace SearchProblem

variable {p q : SearchProblem} {m m' : Model} {v : Variable} {x y : IndividualId}
  {r : PropertyExpression} {s : IndividualId}

theorem assigns_iff_of_getElem? (hp : p.WellFormed) {k : Nat} {z : Option IndividualId}
    (hk : p.start[k]?.map Decision.about = some v) (hz : m[k]? = some z) :
    p.Assigns m v x ↔ z = some x := by
  constructor
  · rintro ⟨j, hj, hx⟩
    rw [hp.place_inj hj hk, hz] at hx
    exact Option.some.inj hx
  · rintro rfl
    exact ⟨k, hk, hz⟩

/-- A model gives one value to a variable. -/
theorem Assigns.unique (hp : p.WellFormed) (h : p.Assigns m v x) (h' : p.Assigns m v y) :
    x = y := by
  obtain ⟨k, hk, hx⟩ := h
  exact Option.some.inj ((assigns_iff_of_getElem? hp hk hx).mp h')

/-- A model is known by the values that it gives. -/
theorem eq_of_assigns_iff (hp : p.WellFormed) (hlen : m.length = p.start.length)
    (hlen' : m'.length = p.start.length) (h : ∀ v x, p.Assigns m v x ↔ p.Assigns m' v x) :
    m = m' := by
  refine List.ext_getElem (hlen.trans hlen'.symm) fun k hk hk' => ?_
  have hstart : k < p.start.length := by omega
  have hplace : p.start[k]?.map Decision.about = some p.start[k].about := by
    rw [List.getElem?_eq_getElem hstart, Option.map_some]
  refine Option.ext fun x => ?_
  rw [← assigns_iff_of_getElem? hp hplace (List.getElem?_eq_getElem hk),
    ← assigns_iff_of_getElem? hp hplace (List.getElem?_eq_getElem hk'), h]

/-- All solutions give the individual to the subject as a value of the relation. -/
def Commits (p : SearchProblem) (r : PropertyExpression) (s x : IndividualId) : Prop :=
  ∃ v, v.relation = r ∧ v.subject = s ∧ p.IsCommon v x

theorem Commits.searched (hp : p.WellFormed) (h : p.Commits r s x) : r ∈ p.searched := by
  obtain ⟨v, rfl, -, hv⟩ := h
  obtain ⟨d, hd, rfl⟩ := List.mem_map.mp hv.1
  exact hp.relation_mem d hd

/-- Of two directions only one is decided. -/
theorem not_commits_reversed (hp : p.WellFormed) (hr : r ∈ p.searched) :
    ¬p.Commits r.reversed s x :=
  fun h => hp.reversed_notMem r hr (h.searched hp)

/-- The fact that a choice stands for, read as a fact about one end. -/
theorem eq_factOf_iff {a : PropertyId} {value : Value} :
    ⟨s, a, value⟩ = factOf v x ↔
      (v.relation = .named a ∧ v.subject = s ∧ value = .individual x) ∨
      (v.relation = .inverse a ∧ x = s ∧ value = .individual v.subject) := by
  rw [factOf]
  constructor
  · intro h
    split at h
    · next b hrel =>
      cases h
      exact Or.inl ⟨hrel, rfl, rfl⟩
    · next b hrel =>
      cases h
      exact Or.inr ⟨hrel, rfl, rfl⟩
  · rintro (⟨hrel, rfl, rfl⟩ | ⟨hrel, rfl, rfl⟩)
    · rw [hrel]
    · rw [hrel]

/-- A model says what a model of another problem says, and what all solutions have in common. -/
def Recovers (p q : SearchProblem) (m m' : Model) : Prop :=
  ∀ v x, p.Assigns m v x ↔ q.Assigns m' v x ∨ p.IsCommon v x

theorem Recovers.gives_iff (h : Recovers p q m m') :
    p.Gives m r s x ↔ q.Gives m' r s x ∨ p.Commits r s x := by
  constructor
  · rintro ⟨v, hrel, hsub, hv⟩
    rcases (h v x).mp hv with hv | hv
    · exact Or.inl ⟨v, hrel, hsub, hv⟩
    · exact Or.inr ⟨v, hrel, hsub, hv⟩
  · rintro (⟨v, hrel, hsub, hv⟩ | ⟨v, hrel, hsub, hv⟩)
    · exact ⟨v, hrel, hsub, (h v x).mpr (Or.inl hv)⟩
    · exact ⟨v, hrel, hsub, (h v x).mpr (Or.inr hv)⟩

/-- The choices of a model of another problem for its variables, and those of a model for the
others. -/
def complete (p q : SearchProblem) (m m' : Model) : Model :=
  p.start.map fun d =>
    if d.about ∈ q.start.map Decision.about then q.choice m' d.about else p.choice m d.about

theorem assigns_complete (hp : p.WellFormed) (hq : q.WellFormed) :
    p.Assigns (p.complete q m m') v x ↔ v ∈ p.start.map Decision.about ∧
      if v ∈ q.start.map Decision.about then q.Assigns m' v x else p.Assigns m v x := by
  have hplace {k : Nat} {d : Decision} (hd : p.start[k]? = some d) :
      (p.complete q m m')[k]? = some (if d.about ∈ q.start.map Decision.about then
        q.choice m' d.about else p.choice m d.about) := by
    rw [complete, List.getElem?_map, hd, Option.map_some]
  constructor
  · rintro ⟨k, hk, hx⟩
    obtain ⟨d, hd, rfl⟩ := Option.map_eq_some_iff.mp hk
    rw [hplace hd, Option.some.injEq] at hx
    refine ⟨List.mem_map_of_mem (List.mem_of_getElem? hd), ?_⟩
    by_cases hmem : d.about ∈ q.start.map Decision.about
    · rw [if_pos hmem] at hx ⊢
      exact (choice_eq_some_iff hq).mp hx
    · rw [if_neg hmem] at hx ⊢
      exact (choice_eq_some_iff hp).mp hx
  · rintro ⟨hv, hx⟩
    obtain ⟨d, hd, rfl⟩ := List.mem_map.mp hv
    obtain ⟨k, hk⟩ := List.mem_iff_getElem?.mp hd
    refine ⟨k, by rw [hk, Option.map_some], ?_⟩
    rw [hplace hk, Option.some.injEq]
    by_cases hmem : d.about ∈ q.start.map Decision.about
    · rw [if_pos hmem] at hx ⊢
      exact (choice_eq_some_iff hq).mpr hx
    · rw [if_neg hmem] at hx ⊢
      exact (choice_eq_some_iff hp).mpr hx

end SearchProblem

/-! ### Committed interpretations -/

namespace World

open SearchProblem

/-- The second interpretation knows what all solutions of the problem of the first one have in
common, and nothing else that is new. -/
structure Committed (w : World) (I J : Interpretation) : Prop where
  types : J.types = I.types
  facts : ∀ f, f ∈ J.facts ↔ f ∈ I.facts ∨
    ∃ v x, (w.searchProblem I).IsCommon v x ∧ f = factOf v x

variable {w : World} {I J : Interpretation}

/-- A search that is not stopped early leads to a committed interpretation. -/
theorem committed_addFacts {maxModels : Nat} {o : Outcome}
    (h : (w.searchProblem I).solve maxModels = .ok o) (hcapped : o.isCapped = false) :
    w.Committed I (I.addFacts o.entailed) where
  types := Interpretation.types_addFacts
  facts f := by
    rw [Interpretation.mem_addFacts, mem_entailed (w.searchProblem_wellFormed I) h hcapped]

/-! ### Candidates -/

/-- A value that a model gives is a candidate. -/
theorem mem_possibleValues_of_assigns {m : Model} (hm : Fits (w.searchProblem I).start m)
    {v : Variable} {x : IndividualId} (hv : (w.searchProblem I).Assigns m v x) :
    x ∈ w.possibleValues I v.relation := by
  obtain ⟨k, hk, hmk⟩ := hv
  obtain ⟨d, hd, rfl⟩ := Option.map_eq_some_iff.mp hk
  obtain ⟨r, -, s, -, rfl⟩ := mem_start.mp (List.mem_of_getElem? hd)
  simpa [Slot.options] using hm.mem hd hmk

/-- Choices fit if they are candidates. -/
theorem fits_map {choice : Variable → Option IndividualId}
    (h : ∀ v ∈ (w.searchProblem I).start.map Decision.about, ∀ x, choice v = some x →
      x ∈ w.possibleValues I v.relation) :
    Fits (w.searchProblem I).start ((w.searchProblem I).start.map fun d => choice d.about) := by
  rw [Fits, List.forall₂_map_right_iff, List.forall₂_same]
  intro d hd
  have hvalues := h d.about (List.mem_map_of_mem hd)
  obtain ⟨r, -, s, -, rfl⟩ := mem_start.mp hd
  dsimp only at hvalues ⊢
  cases hx : choice ⟨r, s, w.isDistinct r⟩ with
  | none => simp [Slot.options]
  | some x => simpa [Slot.options] using hvalues x hx

/-- A solution gives no value that is committed to for another variable, if values are distinct. -/
theorem not_commits_of_assigns {m : Model} (hm : (w.searchProblem I).IsSolution m) {v : Variable}
    {x : IndividualId} (hv : (w.searchProblem I).Assigns m v x)
    (hnone : ∀ y, ¬(w.searchProblem I).IsCommon v y) (hdist : v.isDistinct = true)
    (s : IndividualId) : ¬(w.searchProblem I).Commits v.relation s x := by
  rintro ⟨u, hrel, -, hu⟩
  have huv := hm.distinct v u x hdist hrel.symm hv (hu.2 m hm)
  exact hnone x (huv ▸ hu)

/-! ### What is known -/

namespace Committed

variable {r : PropertyExpression} {i s x : IndividualId}

/-- A value of a relation was known before, or all solutions give it in one of the directions. -/
theorem mem_related (h : w.Committed I J) {y : Value} :
    y ∈ J.related r i ↔ y ∈ I.related r i ∨ ∃ x, y = .individual x ∧
      ((w.searchProblem I).Commits r i x ∨ (w.searchProblem I).Commits r.reversed x i) := by
  cases r with
  | named a =>
    rw [Interpretation.mem_related_named, Interpretation.mem_related_named, h.facts]
    constructor
    · rintro ⟨hold | ⟨v, x, hv, hfact⟩, hy⟩
      · exact Or.inl ⟨hold, hy⟩
      · rcases eq_factOf_iff.mp hfact with ⟨hrel, hsub, rfl⟩ | ⟨hrel, rfl, rfl⟩
        · exact Or.inr ⟨x, rfl, Or.inl ⟨v, hrel, hsub, hv⟩⟩
        · exact Or.inr ⟨v.subject, rfl, Or.inr ⟨v, hrel, rfl, hv⟩⟩
    · rintro (⟨hold, hy⟩ | ⟨x, rfl, ⟨v, hrel, hsub, hv⟩ | ⟨v, hrel, hsub, hv⟩⟩)
      · exact ⟨Or.inl hold, hy⟩
      · exact ⟨Or.inr ⟨v, x, hv, eq_factOf_iff.mpr (Or.inl ⟨hrel, hsub, rfl⟩)⟩, rfl⟩
      · exact ⟨Or.inr ⟨v, i, hv, eq_factOf_iff.mpr (Or.inr ⟨hrel, rfl, by rw [hsub]⟩)⟩, rfl⟩
  | inverse a =>
    rw [Interpretation.mem_related_inverse, Interpretation.mem_related_inverse]
    constructor
    · rintro ⟨s, hs, rfl⟩
      rcases (h.facts _).mp hs with hold | ⟨v, x, hv, hfact⟩
      · exact Or.inl ⟨s, hold, rfl⟩
      · rcases eq_factOf_iff.mp hfact with ⟨hrel, hsub, hx⟩ | ⟨hrel, rfl, hx⟩
        · cases hx
          exact Or.inr ⟨s, rfl, Or.inr ⟨v, hrel, hsub, hv⟩⟩
        · cases hx
          exact Or.inr ⟨x, rfl, Or.inl ⟨v, hrel, rfl, hv⟩⟩
    · rintro (⟨s, hs, rfl⟩ | ⟨x, rfl, ⟨v, hrel, hsub, hv⟩ | ⟨v, hrel, hsub, hv⟩⟩)
      · exact ⟨s, (h.facts _).mpr (Or.inl hs), rfl⟩
      · exact ⟨x, (h.facts _).mpr
          (Or.inr ⟨v, x, hv, eq_factOf_iff.mpr (Or.inr ⟨hrel, rfl, by rw [hsub]⟩)⟩), rfl⟩
      · exact ⟨x, (h.facts _).mpr
          (Or.inr ⟨v, i, hv, eq_factOf_iff.mpr (Or.inl ⟨hrel, hsub, rfl⟩)⟩), rfl⟩

/-- Nothing is known of a relation after all if nothing was known and nothing is committed to. -/
theorem related_eq_nil_iff (h : w.Committed I J) : J.related r i = [] ↔ I.related r i = [] ∧
    ∀ x, ¬(w.searchProblem I).Commits r i x ∧ ¬(w.searchProblem I).Commits r.reversed x i := by
  constructor
  · intro hnil
    have hnone {y : Value} (hy : y ∈ J.related r i) : False := by
      rw [hnil] at hy
      cases hy
    refine ⟨List.eq_nil_iff_forall_not_mem.mpr fun y hy => ?_,
      fun x => ⟨fun hx => ?_, fun hx => ?_⟩⟩
    · exact hnone (h.mem_related.mpr (Or.inl hy))
    · exact hnone (h.mem_related.mpr (Or.inr ⟨x, rfl, Or.inl hx⟩))
    · exact hnone (h.mem_related.mpr (Or.inr ⟨x, rfl, Or.inr hx⟩))
  · rintro ⟨hnil, hnone⟩
    refine List.eq_nil_iff_forall_not_mem.mpr fun y hy => ?_
    rcases h.mem_related.mp hy with hy | ⟨x, rfl, hx | hx⟩
    · rw [hnil] at hy
      cases hy
    · exact (hnone x).1 hx
    · exact (hnone x).2 hx

/-- Commitments are no markers. -/
theorem isComplete_eq (h : w.Committed I J) (r : PropertyExpression) (i : IndividualId) :
    w.isComplete J r i = w.isComplete I r i := by
  have hclosed (p : PropertyId) : J.isClosed p i = I.isClosed p i := by
    rw [Bool.eq_iff_iff, Interpretation.isClosed, Interpretation.isClosed, List.any_eq_true,
      List.any_eq_true]
    simp only [Interpretation.mem_values, h.facts]
    refine exists_congr fun y => and_congr_left fun hy => or_iff_left ?_
    rintro ⟨v, x, -, hfact⟩
    rcases eq_factOf_iff.mp hfact with ⟨-, -, rfl⟩ | ⟨-, -, rfl⟩
    · cases hy
    · cases hy
  simp only [isComplete, hclosed]

theorem constraints_eq (h : w.Committed I J) : w.constraints J = w.constraints I := by
  simp only [constraints, Interpretation.instancesOf, h.types]

theorem searched_eq (h : w.Committed I J) :
    (w.searchProblem J).searched = (w.searchProblem I).searched := by
  simp only [searchProblem, h.constraints_eq]

theorem hasType_eq (h : w.Committed I J) (i : IndividualId) (c : ClassId) :
    J.hasType i c = I.hasType i c := by
  simp only [Interpretation.hasType, h.types]

/-- A domain or a range has the same members if it reads no values. -/
theorem certainMembers_eq (h : w.Committed I J) (hw : w.EndsArePlain) (r : PropertyExpression) :
    w.certainMembers J (w.subjectTypes r) = w.certainMembers I (w.subjectTypes r) := by
  have hplain : ∀ e ∈ w.subjectTypes r, e.readProperties = [] := by
    intro e he
    cases r with
    | named p => exact hw p e (List.mem_append_left _ he)
    | inverse p => exact hw p e (List.mem_append_right _ he)
  have hmember (i : IndividualId) : ∀ e ∈ w.subjectTypes r,
      (w.assertedView J).member e i = (w.assertedView I).member e i := by
    intro e he
    refine View.member_congr (fun c _ j => h.hasType_eq j c) fun p hp => ?_
    rw [hplain e he] at hp
    cases hp
  refine List.filter_congr fun i _ => ?_
  rw [Bool.eq_iff_iff, List.all_eq_true, List.all_eq_true]
  refine forall₂_congr fun e he => ?_
  rw [hmember i e he]

/-! ### Variables that remain -/

/-- A subject remains open if no value of it is committed to. -/
theorem mem_openSubjects (h : w.Committed I J) (hw : w.EndsArePlain)
    (hr : r ∈ (w.searchProblem I).searched) : s ∈ w.openSubjects J r ↔
      s ∈ w.openSubjects I r ∧ ∀ x, ¬(w.searchProblem I).Commits r s x := by
  have hreversed (x : IndividualId) : ¬(w.searchProblem I).Commits r.reversed x s :=
    not_commits_reversed (w.searchProblem_wellFormed I) hr
  simp only [openSubjects, List.mem_filter, h.certainMembers_eq hw, h.isComplete_eq,
    Bool.and_eq_true, List.isEmpty_iff, h.related_eq_nil_iff, hreversed, not_false_eq_true,
    and_true, and_assoc]

/-- A candidate remains unless it is committed to and values are distinct. -/
theorem mem_possibleValues (h : w.Committed I J) (hw : w.EndsArePlain)
    (hr : r ∈ (w.searchProblem I).searched) : x ∈ w.possibleValues J r ↔
      x ∈ w.possibleValues I r ∧
        (w.isDistinct r = true → ∀ s, ¬(w.searchProblem I).Commits r s x) := by
  have hreversed (s : IndividualId) : ¬(w.searchProblem I).Commits r.reversed x s :=
    not_commits_reversed (w.searchProblem_wellFormed I) hr
  simp only [possibleValues, List.mem_filter, h.certainMembers_eq hw, Bool.or_eq_true,
    Bool.not_eq_true', List.isEmpty_iff, h.related_eq_nil_iff, PropertyExpression.reversed_reversed,
    hreversed, not_false_eq_true, true_and]
  cases w.isDistinct r <;> simp [and_assoc]

/-- **The variables that remain are those without a common value.** -/
theorem mem_variables_iff (h : w.Committed I J) (hw : w.EndsArePlain) {v : Variable} :
    v ∈ (w.searchProblem J).start.map Decision.about ↔
      v ∈ (w.searchProblem I).start.map Decision.about ∧
        ∀ x, ¬(w.searchProblem I).IsCommon v x := by
  rw [mem_variables, mem_variables, h.searched_eq]
  constructor
  · rintro ⟨hr, hs, hdist⟩
    obtain ⟨hs, hnone⟩ := (h.mem_openSubjects hw hr).mp hs
    exact ⟨⟨hr, hs, hdist⟩, fun x hx => hnone x ⟨v, rfl, rfl, hx⟩⟩
  · rintro ⟨⟨hr, hs, hdist⟩, hnone⟩
    refine ⟨hr, (h.mem_openSubjects hw hr).mpr ⟨hs, ?_⟩, hdist⟩
    rintro x ⟨u, hrel, hsub, hu⟩
    -- the variable of a relation and a subject is unique
    have huv : u = v := by
      have hdist' := (mem_variables.mp hu.1).2.2
      rw [hrel, ← hdist] at hdist'
      cases u
      cases v
      simp_all
    exact hnone x (huv ▸ hu)

/-! ### Constraints -/

/-- The values of a relation are the same in a model and in the one that it recovers. -/
theorem approximates (h : w.Committed I J) {m m' : Model}
    (hrecovers : Recovers (w.searchProblem I) (w.searchProblem J) m m') {t t' : Successors}
    (ht : (w.searchProblem I).Describes m r i t) (ht' : (w.searchProblem J).Describes m' r i t') :
    t.Approximates t' ∧ t'.Approximates t := by
  have hp := w.searchProblem_wellFormed I
  have hsearched := h.searched_eq
  have hknown (y : Value) : y ∈ t'.known ↔ y ∈ t.known := by
    rw [ht.mem_known, ht'.mem_known]
    have hrelated : y ∈ (w.searchProblem J).interpretation.related r i ↔ _ := h.mem_related
    rw [hrelated, or_assoc, ← exists_or]
    refine or_congr_right (exists_congr fun x => ?_)
    rw [← and_or_left, hrecovers.gives_iff, hrecovers.gives_iff]
    tauto
  have hopen : t'.isOpen = true ↔ t.isOpen = true := by
    rw [ht.isOpen, ht'.isOpen, hsearched]
    refine and_congr_right fun hr => and_congr_right fun hr' => ?_
    -- nothing is committed to about a relation that is not searched
    have hnil : J.related r i = [] ↔ I.related r i = [] := by
      rw [h.related_eq_nil_iff]
      refine and_iff_left fun x => ⟨fun hx => hr (hx.searched hp), fun hx => hr' (hx.searched hp)⟩
    simp only [searchProblem, assertedSuccessors, h.isComplete_eq, ← List.isEmpty_iff] at hnil ⊢
    rw [Bool.eq_iff_iff.mpr hnil]
  have hopen' : t'.isOpen = t.isOpen := Bool.eq_iff_iff.mpr hopen
  constructor
  · exact {
      known := fun y hy => (hknown y).mpr hy
      isOpen := fun hclosed => hopen'.trans hclosed
      known_new := fun _ y hy => Or.inl ((hknown y).mp hy)
      possible := by simp [ht'.possible] }
  · exact {
      known := fun y hy => (hknown y).mp hy
      isOpen := fun hclosed => hopen'.symm.trans hclosed
      known_new := fun _ y hy => Or.inl ((hknown y).mpr hy)
      possible := by simp [ht.possible] }

/-- **A constraint comes to the same in a model and in the one that it recovers.** -/
theorem evaluate_eq (h : w.Committed I J) {m m' : Model}
    (hrecovers : Recovers (w.searchProblem I) (w.searchProblem J) m m') (c : Constraint) :
    (w.searchProblem J).evaluate (decideAll (w.searchProblem J).start m') c
      = (w.searchProblem I).evaluate (decideAll (w.searchProblem I).start m) c := by
  have hdescribes (p : PropertyExpression) (i : IndividualId) :=
    h.approximates hrecovers
      (describes_decideAll (w.searchProblem_wellFormed I) (w.relation p) i)
      (describes_decideAll (w.searchProblem_wellFormed J) (w.relation p) i)
  refine Truth.Approximates.antisymm ?_ ?_
  · exact View.member_approximates _ _
      ⟨fun c _ i => h.hasType_eq i c, fun p _ i => (hdescribes p i).2⟩
  · exact View.member_approximates _ _
      ⟨fun c _ i => (h.hasType_eq i c).symm, fun p _ i => (hdescribes p i).1⟩

/-! ### Solutions in both directions -/

/-- A solution is recovered from what it says about the variables that remain. -/
theorem recovers_restrict (h : w.Committed I J) (hw : w.EndsArePlain) {m : Model}
    (hm : (w.searchProblem I).IsSolution m) :
    Recovers (w.searchProblem I) (w.searchProblem J) m
      ((w.searchProblem J).restrict (w.searchProblem I) m) := by
  have hp := w.searchProblem_wellFormed I
  intro v x
  rw [assigns_restrict hp, h.mem_variables_iff hw]
  constructor
  · intro hv
    by_cases hcommon : ∃ y, (w.searchProblem I).IsCommon v y
    · obtain ⟨y, hy⟩ := hcommon
      rw [hv.unique hp (hy.2 m hm)]
      exact Or.inr hy
    · exact Or.inl ⟨⟨hv.about_mem, fun y hy => hcommon ⟨y, hy⟩⟩, hv⟩
  · rintro (⟨-, hv⟩ | hv)
    · exact hv
    · exact hv.2 m hm

/-- A solution that is completed with the common values recovers the one that it completes. -/
theorem recovers_complete (h : w.Committed I J) (hw : w.EndsArePlain) {m₀ m' : Model}
    (hm₀ : (w.searchProblem I).IsSolution m₀) :
    Recovers (w.searchProblem I) (w.searchProblem J)
      ((w.searchProblem I).complete (w.searchProblem J) m₀ m') m' := by
  have hp := w.searchProblem_wellFormed I
  intro v x
  rw [assigns_complete hp (w.searchProblem_wellFormed J)]
  have hvariables := h.mem_variables_iff hw (v := v)
  constructor
  · rintro ⟨hv, hx⟩
    split at hx
    · exact Or.inl hx
    · next hnot =>
      -- a variable that does not remain has a common value
      obtain ⟨y, hy⟩ : ∃ y, (w.searchProblem I).IsCommon v y := by
        by_contra hnone
        exact hnot (hvariables.mpr ⟨hv, fun y hy => hnone ⟨y, hy⟩⟩)
      rw [hx.unique hp (hy.2 m₀ hm₀)]
      exact Or.inr hy
  · rintro (hx | hx)
    · have hmem := hx.about_mem
      rw [if_pos hmem]
      exact ⟨(hvariables.mp hmem).1, hx⟩
    · have hnot : v ∉ (w.searchProblem J).start.map Decision.about :=
        fun hmem => (hvariables.mp hmem).2 x hx
      rw [if_neg hnot]
      exact ⟨hx.1, hx.2 m₀ hm₀⟩

/-- **What a solution says about the variables that remain is a solution.** -/
theorem isSolution_restrict (h : w.Committed I J) (hw : w.EndsArePlain) {m : Model}
    (hm : (w.searchProblem I).IsSolution m) : (w.searchProblem J).IsSolution
      ((w.searchProblem J).restrict (w.searchProblem I) m) where
  fits := by
    refine fits_map fun v hv x hx => ?_
    have hassigns := (choice_eq_some_iff (w.searchProblem_wellFormed I)).mp hx
    obtain ⟨hold, hnone⟩ := (h.mem_variables_iff hw).mp hv
    obtain ⟨hr, -, hdistinct⟩ := mem_variables.mp hold
    refine (h.mem_possibleValues hw hr).mpr
      ⟨mem_possibleValues_of_assigns hm.fits hassigns, fun hdist => ?_⟩
    exact not_commits_of_assigns hm hassigns hnone (hdistinct.trans hdist)
  distinct := by
    intro v v' x hdist hrel hv hv'
    have hp := w.searchProblem_wellFormed I
    exact hm.distinct v v' x hdist hrel ((assigns_restrict hp).mp hv).2
      ((assigns_restrict hp).mp hv').2
  admitted := by
    intro c hc
    rw [h.evaluate_eq (h.recovers_restrict hw hm)]
    refine hm.admitted c ?_
    rw [searchProblem, ← h.constraints_eq]
    exact hc

/-- **A solution that is completed with the common values is a solution.** -/
theorem isSolution_complete (h : w.Committed I J) (hw : w.EndsArePlain) {m₀ m' : Model}
    (hm₀ : (w.searchProblem I).IsSolution m₀) (hm' : (w.searchProblem J).IsSolution m') :
    (w.searchProblem I).IsSolution
      ((w.searchProblem I).complete (w.searchProblem J) m₀ m') where
  fits := by
    refine @fits_map w I (fun v => if v ∈ (w.searchProblem J).start.map Decision.about then
      (w.searchProblem J).choice m' v else (w.searchProblem I).choice m₀ v) fun v hv x hx => ?_
    by_cases hmem : v ∈ (w.searchProblem J).start.map Decision.about
    · rw [if_pos hmem, choice_eq_some_iff (w.searchProblem_wellFormed J)] at hx
      have hnew := mem_possibleValues_of_assigns hm'.fits hx
      exact ((h.mem_possibleValues hw (mem_variables.mp hv).1).mp hnew).1
    · rw [if_neg hmem, choice_eq_some_iff (w.searchProblem_wellFormed I)] at hx
      exact mem_possibleValues_of_assigns hm₀.fits hx
  distinct := by
    intro v v' x hdist hrel hv hv'
    have hrecovers : Recovers (w.searchProblem I) (w.searchProblem J) _ m' :=
      h.recovers_complete hw hm₀
    -- a choice that is left is none of those that are committed to
    have hseparate {v v' : Variable} (hdist : v.isDistinct = true) (hrel : v.relation = v'.relation)
        (hv : (w.searchProblem J).Assigns m' v x) : ¬(w.searchProblem I).IsCommon v' x := by
      intro hv'
      obtain ⟨hr, -, hdistinct⟩ := mem_variables.mp ((h.mem_variables_iff hw).mp hv.about_mem).1
      have hnew := mem_possibleValues_of_assigns hm'.fits hv
      exact ((h.mem_possibleValues hw hr).mp hnew).2 (hdistinct.symm.trans hdist) v'.subject
        ⟨v', hrel.symm, rfl, hv'⟩
    have hdist' : v'.isDistinct = true := by
      rw [(mem_variables.mp hv'.about_mem).2.2, ← hrel, ← (mem_variables.mp hv.about_mem).2.2,
        hdist]
    rcases (hrecovers v x).mp hv with hleft | hcommon
    · rcases (hrecovers v' x).mp hv' with hleft' | hcommon'
      · exact hm'.distinct v v' x hdist hrel hleft hleft'
      · exact absurd hcommon' (hseparate hdist hrel hleft)
    · rcases (hrecovers v' x).mp hv' with hleft' | hcommon'
      · exact absurd hcommon (hseparate hdist' hrel.symm hleft')
      · exact hm₀.distinct v v' x hdist hrel (hcommon.2 m₀ hm₀) (hcommon'.2 m₀ hm₀)
  admitted := by
    intro c hc
    rw [← h.evaluate_eq (h.recovers_complete hw hm₀)]
    refine hm'.admitted c ?_
    rw [searchProblem, h.constraints_eq]
    exact hc

/-- What a completed solution says about the variables that remain is what it was completed from. -/
theorem restrict_complete (h : w.Committed I J) (hw : w.EndsArePlain) {m₀ m' : Model}
    (hm₀ : (w.searchProblem I).IsSolution m₀) (hm' : (w.searchProblem J).IsSolution m') :
    (w.searchProblem J).restrict (w.searchProblem I)
      ((w.searchProblem I).complete (w.searchProblem J) m₀ m') = m' := by
  have hp := w.searchProblem_wellFormed I
  refine eq_of_assigns_iff (w.searchProblem_wellFormed J) (by rw [restrict, List.length_map])
    hm'.fits.length_eq.symm fun v x => ?_
  rw [assigns_restrict hp, h.recovers_complete hw hm₀]
  constructor
  · rintro ⟨hv, hx | hx⟩
    · exact hx
    · exact absurd hx (((h.mem_variables_iff hw).mp hv).2 x)
  · intro hx
    exact ⟨hx.about_mem, Or.inl hx⟩

/-- **The solutions are the same as far as the variables remain.** -/
theorem bijOn_restrict (h : w.Committed I J) (hw : w.EndsArePlain)
    (hsome : ∃ m, (w.searchProblem I).IsSolution m) :
    Set.BijOn ((w.searchProblem J).restrict (w.searchProblem I))
      {m | (w.searchProblem I).IsSolution m} {m | (w.searchProblem J).IsSolution m} := by
  refine ⟨fun m hm => h.isSolution_restrict hw hm, fun m hm m₁ hm₁ heq => ?_, fun m' hm' => ?_⟩
  · -- what two solutions do not say about these variables is common to them
    refine eq_of_assigns_iff (w.searchProblem_wellFormed I) hm.fits.length_eq.symm
      hm₁.fits.length_eq.symm fun v x => ?_
    rw [h.recovers_restrict hw hm v x, h.recovers_restrict hw hm₁ v x, heq]
  · obtain ⟨m₀, hm₀⟩ := hsome
    exact ⟨_, h.isSolution_complete hw hm₀ hm', h.restrict_complete hw hm₀ hm'⟩

/-- All solutions of the later problem leave nothing to commit to. -/
theorem not_isCommon (h : w.Committed I J) (hw : w.EndsArePlain) {v : Variable}
    {x : IndividualId} : ¬(w.searchProblem J).IsCommon v x := by
  rintro ⟨hv, hall⟩
  obtain ⟨hold, hnone⟩ := (h.mem_variables_iff hw).mp hv
  refine hnone x ⟨hold, fun m hm => ?_⟩
  have hassigns := hall _ (h.isSolution_restrict hw hm)
  exact ((assigns_restrict (w.searchProblem_wellFormed I)).mp hassigns).2

end Committed

/-- **A commitment loses no solution and leaves nothing to commit to.**  A search of a loaded
ontology that is not stopped early is followed by one over the same interpretation with the facts
that were found.  Its variables are those without a common value, its solutions are those of the
first one as far as these variables go, and so it finds as many and no further facts. -/
theorem committed_exact (hw : w.IsLoaded) {maxModels : Nat} {o : Outcome}
    (hsolve : (w.searchProblem I).solve maxModels = .ok o) (hcapped : o.isCapped = false) :
    let p := w.searchProblem I
    let q := w.searchProblem (I.addFacts o.entailed)
    (∀ v, v ∈ q.start.map Decision.about ↔
      v ∈ p.start.map Decision.about ∧ ∀ x, ¬p.IsCommon v x) ∧
    Set.BijOn (q.restrict p) {m | p.IsSolution m} {m | q.IsSolution m} ∧
    (∀ m v x, q.Assigns (q.restrict p m) v x ↔
      v ∈ q.start.map Decision.about ∧ p.Assigns m v x) ∧
    q.solve maxModels = .ok { o with entailed := [] } := by
  intro p q
  have hp := w.searchProblem_wellFormed I
  have hplain := hw.endsArePlain
  have h := committed_addFacts hsolve hcapped
  have hbij := h.bijOn_restrict hplain (exists_isSolution_of_solve hp hsolve)
  refine ⟨fun v => h.mem_variables_iff hplain, hbij, fun m v x => assigns_restrict hp, ?_⟩
  -- as many solutions as before
  have hcount : {m | q.IsSolution m}.ncard = {m | p.IsSolution m}.ncard := by
    rw [← hbij.image_eq, hbij.injOn.ncard_image]
  obtain ⟨m, hm⟩ := exists_isSolution_of_solve hp hsolve
  rcases solve_eq hp maxModels with ⟨e, he, -⟩ | ⟨entailed, hok, -⟩
  · rw [hsolve] at he
    cases he
  rw [hsolve, Except.ok.injEq] at hok
  rw [hok] at hcapped ⊢
  have hlt : {m | p.IsSolution m}.ncard < max maxModels 1 := not_le.mp (of_decide_eq_false hcapped)
  rcases solve_eq (w.searchProblem_wellFormed (I.addFacts o.entailed)) maxModels with
    ⟨e, -, hnone⟩ | ⟨entailed', hok', -, -, hcommon⟩
  · exact absurd (hbij.mapsTo hm) (hnone _)
  have hnil : entailed' = [] := by
    refine List.eq_nil_iff_forall_not_mem.mpr fun f hf => ?_
    obtain ⟨v, x, hv, -⟩ := (hcommon (hcount ▸ hlt) f).mp hf
    exact h.not_isCommon hplain hv
  rw [hok', hnil, hcount]

/-! ### Seats -/

/-- No two guests sit at the same seat and nobody sits at two.  Ann sits at the first of three seats
and Ben at some seat. -/
def seatingDocument : Tree :=
  .sequence [
    .object [("owl_class", .object [("Guest", .null)])],
    .object [("owl_class", .object [("Seat", .null)])],
    .object [("owl_multiple_individuals", .object [
      ("names", .sequence [.string "ann", .string "ben"]),
      ("types", .sequence [.string "Guest"])])],
    .object [("owl_multiple_individuals", .object [
      ("names", .sequence [.string "s1", .string "s2", .string "s3"]),
      ("types", .sequence [.string "Seat"])])],
    .object [("owl_object_property", .object [("sits_at", .object [
      ("Domain", .string "Guest"),
      ("Range", .string "Seat"),
      ("Characteristics", .sequence [.string "Functional", .string "InverseFunctional"])])])],
    .object [("restriction", .object [("Subject", .string "ann"),
      ("Body", .object [("sits_at", .object [("value", .string "s1")])])])],
    .object [("restriction", .object [("Subject", .string "ben"),
      ("Body", .object [("sits_at", .object [("some", .string "Seat")])])])]]

/-- The ontology of the document. -/
def seating : World :=
  (load {} {} "" seatingDocument).toOption.getD default

theorem load_seatingDocument : load {} {} "" seatingDocument = .ok seating :=
  eq_ok_of_isSome (by decide +kernel)

theorem isLoaded_seating : seating.IsLoaded :=
  ⟨_, _, _, _, load_seatingDocument⟩

/-- Ann sits at the first seat. -/
def annSits : Fact := ⟨⟨0⟩, ⟨0⟩, .individual ⟨2⟩⟩

/-- The search finds where Ann sits and two seats for Ben.  With Ann at her seat it finds the two
seats again, now without the first seat among the candidates, and nothing else. -/
theorem committed_exact_seating :
    let p := seating.searchProblem seating.interpretation
    let q := seating.searchProblem (seating.interpretation.addFacts [annSits])
    p.solve 64 = .ok ⟨2, false, [annSits]⟩ ∧
      q.start = [⟨⟨.named ⟨0⟩, ⟨1⟩, true⟩, .undecided [some ⟨3⟩, some ⟨4⟩, none]⟩] ∧
      Set.BijOn (q.restrict p) {m | p.IsSolution m} {m | q.IsSolution m} ∧
      q.solve 64 = .ok ⟨2, false, []⟩ := by
  intro p q
  have hsolve : p.solve 64 = .ok ⟨2, false, [annSits]⟩ := by decide +kernel
  obtain ⟨-, hbij, -, hagain⟩ := committed_exact isLoaded_seating hsolve rfl
  exact ⟨hsolve, by decide +kernel, hbij, hagain⟩

end World

end Ontology
