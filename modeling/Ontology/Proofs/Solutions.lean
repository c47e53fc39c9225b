import Mathlib.Data.List.Nodup
import Ontology.Proofs.Lists
import Ontology.Proofs.Refinement
import Ontology.Reasoning.Search

/-!
# Solutions of a search problem

A solution gives each variable one of its options such that no constraint fails.  It is stated
without regard to how solutions are found: all variables are decided at once and the constraints
are evaluated afterwards.

## Main definitions

* `SearchProblem.decideAll` — the variables with the choices of a model.
* `SearchProblem.IsSolution` — the models that satisfy everything.
* `SearchProblem.Narrows` — decisions later on, with fewer options and more choices.
* `SearchProblem.IsCommon` — what all solutions agree on.
* `SearchProblem.WellFormed` — what `World.searchProblem` guarantees.

## Main results

* `SearchProblem.Narrows.relationSuccessors_approximates` — what partial decisions tell of the
  values of a relation.
* `SearchProblem.evaluate_approximates` — **what a constraint comes to under partial decisions it
  comes to in every solution that they leave.**
* `SearchProblem.evaluate_congr` — a constraint depends on the variables of the properties that it
  reads only.
* `World.searchProblem_wellFormed` — problems are well-formed.
-/

namespace Ontology

namespace SearchProblem

/-! ### Solutions -/

/-- Every variable with the choice that a model has in its place. -/
def decideAll (ds : List Decision) (m : Model) : List Decision :=
  List.zipWith (fun d x => { about := d.about, slot := .decided x }) ds m

/-- A model chooses among the options that are left. -/
def Fits (ds : List Decision) (m : Model) : Prop :=
  List.Forall₂ (fun d x => x ∈ d.slot.options) ds m

/-- A model gives an individual to a variable as its value. -/
def Assigns (p : SearchProblem) (m : Model) (v : Variable) (x : IndividualId) : Prop :=
  ∃ k : Nat, p.start[k]?.map Decision.about = some v ∧ m[k]? = some (some x)

/-- A model chooses among the options of each variable, gives no individual to two variables that
have to be distinct, and makes no constraint fail. -/
structure IsSolution (p : SearchProblem) (m : Model) : Prop where
  fits : Fits p.start m
  distinct : ∀ (v v' : Variable) (x : IndividualId), v.isDistinct = true →
    v.relation = v'.relation → p.Assigns m v x → p.Assigns m v' x → v = v'
  admitted : ∀ c ∈ p.constraints, p.evaluate (decideAll p.start m) c ≠ .fails

/-- All solutions give the individual to the variable. -/
def IsCommon (p : SearchProblem) (v : Variable) (x : IndividualId) : Prop :=
  v ∈ p.start.map Decision.about ∧ ∀ m, p.IsSolution m → p.Assigns m v x

/-- What the choices of variables rely on: at first every option is open and listed once, no
variable occurs twice, the variables of a relation are distinct all or none, the relations of
variables are searched, each property in one direction only, and a constraint lists the properties
that it reads. -/
structure WellFormed (p : SearchProblem) : Prop where
  undecided : ∀ d ∈ p.start, d.slot.isUndecided = true
  options_nodup : ∀ d ∈ p.start, d.slot.options.Nodup
  about_nodup : (p.start.map Decision.about).Nodup
  isDistinct_eq : ∀ d ∈ p.start, ∀ e ∈ p.start, d.about.relation = e.about.relation →
    d.about.isDistinct = e.about.isDistinct
  relation_mem : ∀ d ∈ p.start, d.about.relation ∈ p.searched
  reversed_notMem : ∀ r ∈ p.searched, r.reversed ∉ p.searched
  reads : ∀ c ∈ p.constraints, ∀ q ∈ c.restriction.toExpression.readProperties,
    (p.world.relation q).property ∈ c.reads

/-- A variable has one place only. -/
theorem WellFormed.place_inj {p : SearchProblem} (hp : p.WellFormed) {j k : Nat} {v : Variable}
    (hj : p.start[j]?.map Decision.about = some v)
    (hk : p.start[k]?.map Decision.about = some v) : j = k := by
  rw [← List.getElem?_map] at hj hk
  obtain ⟨hlt, -⟩ := List.getElem?_eq_some_iff.mp hj
  exact (List.getElem?_inj hlt hp.about_nodup).mp (hj.trans hk.symm)

/-! ### Decided variables -/

theorem Fits.length_eq {ds : List Decision} {m : Model} (h : Fits ds m) :
    ds.length = m.length :=
  List.Forall₂.length_eq h

theorem Fits.mem {ds : List Decision} {m : Model} (h : Fits ds m) {k : Nat} {d : Decision}
    {x : Option IndividualId} (hd : ds[k]? = some d) (hx : m[k]? = some x) :
    x ∈ d.slot.options :=
  (forall₂_iff_getElem?.mp h).2 k d x hd hx

theorem Fits.exists_choice {ds : List Decision} {m : Model} (h : Fits ds m) {k : Nat}
    {d : Decision} (hd : ds[k]? = some d) : ∃ x, m[k]? = some x := by
  have hlt := (List.getElem?_eq_some_iff.mp hd).1
  exact ⟨_, List.getElem?_eq_getElem (by rw [← h.length_eq]; exact hlt)⟩

theorem Slot.eq_decided_of_not_isUndecided {s : Slot} (h : s.isUndecided = false) :
    ∃ x, s = .decided x := by
  cases s with
  | undecided options => simp [Slot.isUndecided] at h
  | decided x => exact ⟨x, rfl⟩

/-! ### Later decisions -/

/-- A variable later on: a choice stays as it is, and where none was made yet nothing but options
that were left has come into question. -/
structure NarrowsTo (d e : Decision) : Prop where
  about : e.about = d.about
  options : e.slot.options ⊆ d.slot.options
  decided : d.slot.isUndecided = false → e.slot = d.slot

/-- The same variables later on. -/
def Narrows (ds es : List Decision) : Prop := List.Forall₂ NarrowsTo ds es

/-- A model that chooses among the options left decides all variables at once. -/
theorem Fits.narrows {ds : List Decision} {m : Model} (h : Fits ds m) :
    Narrows ds (decideAll ds m) := by
  induction h with
  | nil => exact .nil
  | @cons d x ds m hx _ ih =>
    refine .cons ⟨rfl, ?_, fun hd => ?_⟩ ih
    · simpa [Slot.options] using hx
    · obtain ⟨y, hy⟩ := Slot.eq_decided_of_not_isUndecided hd
      rw [hy, Slot.options, List.mem_singleton] at hx
      rw [hy, hx]

/-! ### What partial decisions tell -/

/-- The variable of a subject is found in the same place later on. -/
theorem Narrows.find? {ds es : List Decision} (h : Narrows ds es) (r : PropertyExpression)
    (i : IndividualId) :
    (ds.find? (fun d => d.about.relation = r ∧ d.about.subject = i) = none ∧
      es.find? (fun d => d.about.relation = r ∧ d.about.subject = i) = none) ∨
    ∃ d e, NarrowsTo d e ∧
      ds.find? (fun d => d.about.relation = r ∧ d.about.subject = i) = some d ∧
      es.find? (fun d => d.about.relation = r ∧ d.about.subject = i) = some e := by
  induction h with
  | nil => exact Or.inl ⟨rfl, rfl⟩
  | @cons d e ds es hde _ ih =>
    by_cases hd : d.about.relation = r ∧ d.about.subject = i
    · have he : e.about.relation = r ∧ e.about.subject = i := by rw [hde.about]; exact hd
      exact Or.inr ⟨d, e, hde, List.find?_cons_of_pos (by simpa using hd),
        List.find?_cons_of_pos (by simpa using he)⟩
    · have he : ¬(e.about.relation = r ∧ e.about.subject = i) := by rw [hde.about]; exact hd
      rw [List.find?_cons_of_neg (by simpa using hd), List.find?_cons_of_neg (by simpa using he)]
      exact ih

/-- Decisions about the inverse of a relation tell of its values what all later ones tell. -/
theorem Narrows.turnedSuccessors_approximates {ds es : List Decision} (h : Narrows ds es)
    (known : List Value) (r : PropertyExpression) (i : IndividualId) :
    (turnedSuccessors known (ds.filter (·.about.relation = r)) i).Approximates
      (turnedSuccessors known (es.filter (·.about.relation = r)) i) := by
  refine ⟨?_, fun _ => rfl, fun _ => ?_, fun _ => ?_⟩
  · intro y hy
    simp only [turnedSuccessors, List.mem_append, List.mem_filterMap, List.mem_filter] at hy ⊢
    rcases hy with hy | ⟨d, ⟨hd, hr⟩, hy⟩
    · exact Or.inl hy
    · obtain ⟨e, he, hde⟩ := exists_of_forall₂_left h hd
      refine Or.inr ⟨e, ⟨he, by rw [hde.about]; exact hr⟩, ?_⟩
      split at hy
      · next hslot =>
        rw [if_pos ((hde.decided (by rw [hslot]; rfl)).trans hslot), hde.about, ← hy]
      · simp at hy
  · intro y hy
    simp only [turnedSuccessors, List.mem_append, List.mem_filterMap, List.mem_filter] at hy ⊢
    rcases hy with hy | ⟨e, ⟨he, hr⟩, hy⟩
    · exact Or.inl (Or.inl hy)
    · obtain ⟨d, hd, hde⟩ := exists_of_forall₂_right h he
      rw [hde.about] at hr hy
      split at hy
      · next hslot =>
        rw [Option.some.injEq] at hy
        subst hy
        have hx : some i ∈ d.slot.options := hde.options (by rw [hslot]; simp [Slot.options])
        -- the subject was possible before if its variable was still open
        cases hs : d.slot.isUndecided with
        | true => exact Or.inr ⟨_, ⟨d, ⟨hd, hr⟩, if_pos ⟨hs, hx⟩⟩, rfl⟩
        | false =>
          exact Or.inl (Or.inr ⟨d, ⟨hd, hr⟩, if_pos ((hde.decided hs).symm.trans hslot)⟩)
      · simp at hy
  · intro y hy
    simp only [turnedSuccessors, List.mem_filterMap, List.mem_filter] at hy ⊢
    obtain ⟨e, ⟨he, hr⟩, hy⟩ := hy
    obtain ⟨d, hd, hde⟩ := exists_of_forall₂_right h he
    rw [hde.about] at hr hy
    split at hy
    · next hopen =>
      have hs : d.slot.isUndecided = true := by
        by_contra hs
        rw [hde.decided (by simpa using hs)] at hopen
        exact hs hopen.1
      exact ⟨d, ⟨hd, hr⟩, by rw [if_pos ⟨hs, hde.options hopen.2⟩, hy]⟩
    · simp at hy

/-- The values of a relation under partial decisions approximate those under all later ones,
whatever they are read from: a variable of the subject, a subject that was decided up front, the
variables of the inverse relation or the interpretation. -/
theorem Narrows.relationSuccessors_approximates (p : SearchProblem) {ds es : List Decision}
    (h : Narrows ds es) (r : PropertyExpression) (i : IndividualId) :
    (p.relationSuccessors ds r i).Approximates (p.relationSuccessors es r i) := by
  simp only [relationSuccessors]
  rcases h.find? r i with ⟨hd, he⟩ | ⟨d, e, hde, hd, he⟩
  · rw [hd, he]
    dsimp only
    split
    · exact .refl _
    split
    · exact h.turnedSuccessors_approximates _ _ _
    · exact .refl _
  · rw [hd, he]
    dsimp only
    cases hs : d.slot with
    | decided y =>
      rw [hde.decided (by rw [hs]; rfl), hs]
      exact .refl _
    | undecided options =>
      have hsub := hde.options
      rw [hs, Slot.options] at hsub
      cases he : e.slot with
      | undecided rest =>
        rw [he, Slot.options] at hsub
        refine ⟨fun y hy => hy, fun _ => rfl, fun _ y hy => Or.inl hy, fun _ y hy => ?_⟩
        obtain ⟨x, hx, hxy⟩ := List.mem_filterMap.mp hy
        exact List.mem_filterMap.mpr ⟨x, hsub hx, hxy⟩
      | decided x =>
        have hx : x ∈ options := by simpa [he, Slot.options] using hsub
        refine ⟨fun y hy => List.mem_append_left _ hy, fun _ => rfl, fun _ => ?_, fun _ => ?_⟩
        · intro y hy
          rcases List.mem_append.mp hy with hy | hy
          · exact Or.inl hy
          · obtain ⟨z, hz, rfl⟩ := by simpa using hy
            exact Or.inr ⟨z, List.mem_filterMap.mpr ⟨_, hx, by simpa using hz⟩, rfl⟩
        · intro y hy
          simp at hy

/-- What can be asked under partial decisions, all later decisions answer at least as well. -/
theorem Narrows.view_approximates (p : SearchProblem) {ds es : List Decision} (h : Narrows ds es)
    (cs : List ClassId) (rs : List PropertyExpression) :
    View.ApproximatesOn cs rs (p.view ds) (p.view es) where
  hasType := fun _ _ _ => rfl
  successors := fun q _ i => h.relationSuccessors_approximates p (p.world.relation q) i

/-- **What a constraint comes to under partial decisions it comes to in every model that they
leave.** -/
theorem evaluate_approximates (p : SearchProblem) {ds : List Decision} {m : Model}
    (h : Fits ds m) (c : Constraint) :
    (p.evaluate ds c).Approximates (p.evaluate (decideAll ds m) c) :=
  View.member_approximates _ _ (h.narrows.view_approximates p _ _)

/-! ### What a constraint depends on -/

/-- Decisions about the same variables that agree on those of the given properties. -/
def AgreeOn (ps : List PropertyId) (ds es : List Decision) : Prop :=
  List.Forall₂ (fun d e => e.about = d.about ∧ (d.about.relation.property ∈ ps → e = d)) ds es

theorem AgreeOn.find? {ps : List PropertyId} {ds es : List Decision} (h : AgreeOn ps ds es)
    {r : PropertyExpression} (hr : r.property ∈ ps) (i : IndividualId) :
    ds.find? (fun d => d.about.relation = r ∧ d.about.subject = i)
      = es.find? (fun d => d.about.relation = r ∧ d.about.subject = i) := by
  induction h with
  | nil => rfl
  | @cons d e ds es hde _ ih =>
    by_cases hd : d.about.relation = r ∧ d.about.subject = i
    · have he : e = d := hde.2 (by rw [hd.1]; exact hr)
      rw [he, List.find?_cons_of_pos (by simpa using hd),
        List.find?_cons_of_pos (by simpa using hd)]
    · have he : ¬(e.about.relation = r ∧ e.about.subject = i) := by rw [hde.1]; exact hd
      rw [List.find?_cons_of_neg (by simpa using hd),
        List.find?_cons_of_neg (by simpa using he), ih]

theorem AgreeOn.filter {ps : List PropertyId} {ds es : List Decision} (h : AgreeOn ps ds es)
    {r : PropertyExpression} (hr : r.property ∈ ps) :
    ds.filter (·.about.relation = r) = es.filter (·.about.relation = r) := by
  induction h with
  | nil => rfl
  | @cons d e ds es hde _ ih =>
    by_cases hd : d.about.relation = r
    · have he : e = d := hde.2 (by rw [hd]; exact hr)
      rw [he, List.filter_cons_of_pos (by simpa using hd),
        List.filter_cons_of_pos (by simpa using hd), ih]
    · have he : ¬e.about.relation = r := by rw [hde.1]; exact hd
      rw [List.filter_cons_of_neg (by simpa using hd),
        List.filter_cons_of_neg (by simpa using he), ih]

theorem relationSuccessors_congr (p : SearchProblem) {ps : List PropertyId} {ds es : List Decision}
    (h : AgreeOn ps ds es) {r : PropertyExpression} (hr : r.property ∈ ps) (i : IndividualId) :
    p.relationSuccessors ds r i = p.relationSuccessors es r i := by
  have hrev : r.reversed.property ∈ ps := by rw [PropertyExpression.property_reversed]; exact hr
  simp only [relationSuccessors, h.find? hr i, h.filter hrev]

/-- **A constraint depends on the variables of the properties that it reads only.** -/
theorem evaluate_congr {p : SearchProblem} (hp : p.WellFormed) {c : Constraint}
    (hc : c ∈ p.constraints) {ds es : List Decision} (h : AgreeOn c.reads ds es) :
    p.evaluate ds c = p.evaluate es c :=
  View.member_congr (fun _ _ _ => rfl)
    (fun q hq i => p.relationSuccessors_congr h (hp.reads c hc q hq) i)

end SearchProblem

/-! ### Problems are well-formed -/

namespace World

theorem nodup_individualIds (w : World) : w.individualIds.Nodup :=
  List.nodup_range.map fun a b h => by simpa using h

theorem nodup_propertyIds (w : World) : w.propertyIds.Nodup :=
  List.nodup_range.map fun a b h => by simpa using h

theorem nodup_certainMembers (w : World) (I : Interpretation) (es : List ClassExpression) :
    (w.certainMembers I es).Nodup :=
  w.nodup_individualIds.filter _

theorem property_of_searchedRelation? {w : World} {p : PropertyId} {r : PropertyExpression}
    (h : w.searchedRelation? p = some r) : r.property = p := by
  simp only [searchedRelation?] at h
  repeat' split at h
  all_goals simp_all
  all_goals subst h; rfl

theorem nodup_searchedRelations (w : World) (cs : List Constraint) :
    (w.searchedRelations cs).Nodup := by
  refine (w.nodup_propertyIds.filter _).filterMap ?_
  intro p p' r hr hr'
  rw [← property_of_searchedRelation? hr, ← property_of_searchedRelation? hr']

theorem mem_searchedRelations {w : World} {cs : List Constraint} {r : PropertyExpression} :
    r ∈ w.searchedRelations cs ↔ w.searchedRelation? r.property = some r ∧
      r.property ∈ w.propertyIds ∧ ∃ c ∈ cs, r.property ∈ c.reads := by
  simp only [searchedRelations, List.mem_filterMap, List.mem_filter, List.any_eq_true,
    decide_eq_true_eq]
  constructor
  · rintro ⟨p, ⟨hp, hreads⟩, hr⟩
    rw [property_of_searchedRelation? hr]
    exact ⟨hr, hp, hreads⟩
  · rintro ⟨hr, hp, hreads⟩
    exact ⟨r.property, ⟨hp, hreads⟩, hr⟩

/-- The variables of a problem are the open subjects of the relations to decide. -/
theorem mem_start {w : World} {I : Interpretation} {d : Decision} :
    d ∈ (w.searchProblem I).start ↔ ∃ r ∈ (w.searchProblem I).searched, ∃ s ∈ w.openSubjects I r,
      d = ⟨⟨r, s, w.isDistinct r⟩, .undecided ((w.possibleValues I r).map some ++ [none])⟩ := by
  simp only [searchProblem, decisions, List.mem_flatMap, List.mem_map]
  constructor
  · rintro ⟨r, hr, s, hs, rfl⟩
    exact ⟨r, hr, s, hs, rfl⟩
  · rintro ⟨r, hr, s, hs, rfl⟩
    exact ⟨r, hr, s, hs, rfl⟩

theorem exists_of_mem_constraints {w : World} {I : Interpretation} {c : Constraint}
    (h : c ∈ w.constraints I) : ∃ r i, c = w.constraint r i := by
  simp only [constraints, List.mem_append, List.mem_flatMap, List.mem_map] at h
  rcases h with ⟨i, -, r, -, rfl⟩ | ⟨c, -, r, -, i, -, rfl⟩
  · exact ⟨r, i, rfl⟩
  · exact ⟨r, i, rfl⟩

theorem nodup_about_start (w : World) (I : Interpretation) :
    ((w.searchProblem I).start.map Decision.about).Nodup := by
  simp only [searchProblem, List.map_flatMap]
  refine List.nodup_flatMap.mpr ⟨?_, ?_⟩
  · intro r _
    simp only [decisions, List.map_map]
    refine ((w.nodup_certainMembers I _).filter _).map ?_
    intro s s' h
    simpa using h
  · -- the variables of different relations are different
    refine (w.nodup_searchedRelations _).pairwise_of_forall_ne ?_
    intro r _ r' _ hne v hv hv'
    simp only [decisions, List.map_map, List.mem_map, Function.comp] at hv hv'
    obtain ⟨s, -, rfl⟩ := hv
    obtain ⟨s', -, h⟩ := hv'
    exact hne (by simpa using congrArg Variable.relation h.symm)

/-- **The problem of an interpretation is well-formed.** -/
theorem searchProblem_wellFormed (w : World) (I : Interpretation) :
    (w.searchProblem I).WellFormed where
  undecided := by
    intro d hd
    obtain ⟨r, -, s, -, rfl⟩ := mem_start.mp hd
    rfl
  options_nodup := by
    intro d hd
    obtain ⟨r, -, s, -, rfl⟩ := mem_start.mp hd
    refine List.Nodup.append ?_ (List.nodup_singleton _) ?_
    · exact ((w.nodup_certainMembers I _).filter _).map fun a b h => by simpa using h
    · simp
  about_nodup := w.nodup_about_start I
  isDistinct_eq := by
    intro d hd e he h
    obtain ⟨r, -, s, -, rfl⟩ := mem_start.mp hd
    obtain ⟨r', -, s', -, rfl⟩ := mem_start.mp he
    rw [show r = r' from h]
  relation_mem := by
    intro d hd
    obtain ⟨r, hr, s, -, rfl⟩ := mem_start.mp hd
    exact hr
  reversed_notMem := by
    intro r hr hr'
    have h := (mem_searchedRelations.mp hr).1
    have h' := (mem_searchedRelations.mp hr').1
    rw [PropertyExpression.property_reversed, h, Option.some.injEq] at h'
    cases r <;> simp [PropertyExpression.reversed] at h'
  reads := by
    intro c hc q hq
    obtain ⟨r, i, rfl⟩ := exists_of_mem_constraints hc
    exact List.mem_map.mpr ⟨q, hq, rfl⟩

end World

end Ontology
