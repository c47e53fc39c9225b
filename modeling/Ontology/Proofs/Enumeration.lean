import Mathlib.Data.List.Sections
import Mathlib.Data.Set.Card
import Ontology.Proofs.Pruning

/-!
# The search enumerates the solutions

## Main definitions

* `SearchProblem.Consistent` — what holds of the decisions at each step of the search: what is
  decided is respected by all options, and no constraint fails whose variables are all decided.
* `SearchProblem.Enumerates` — the first members of a set of models, each once, up to a limit.
* `SearchProblem.Counts` — a search counts a model.

## Main results

* `SearchProblem.decide_consistent` — a decision keeps the decisions consistent.
* `SearchProblem.firstModels_enumerates` — from consistent decisions the search finds the
  solutions that they leave.
* `SearchProblem.isSolution_iff_counts` — the models that are counted within some limit are the
  solutions.
* `World.solve_exact` — **the answer of the search is what the set of all solutions says.**
-/

namespace Ontology

namespace SearchProblem

/-! ### What holds at each step -/

/-- The options are options of the problem, no option of a variable is the choice of another one
that it has to be distinct from, and no constraint fails whose variables are all decided. -/
structure Consistent (p : SearchProblem) (ds : List Decision) : Prop where
  narrowed : List.Forall₂ (fun s d => d.about = s.about ∧ d.slot.options.Sublist s.slot.options)
    p.start ds
  distinct : ∀ (j k : Nat) (d e : Decision) (x : IndividualId), ds[j]? = some d →
    ds[k]? = some e → j ≠ k → d.about.isDistinct = true → e.about.relation = d.about.relation →
      d.slot = .decided (some x) → some x ∉ e.slot.options
  admitted : ∀ c ∈ p.constraints,
    (∀ d ∈ ds, d.about.relation.property ∈ c.reads → d.slot.isUndecided = false) →
      p.evaluate ds c ≠ .fails

theorem Consistent.map_about {p : SearchProblem} {ds : List Decision} (h : p.Consistent ds) :
    ds.map Decision.about = p.start.map Decision.about := by
  have hnarrowed := h.narrowed
  clear h
  generalize p.start = ss at hnarrowed
  induction hnarrowed with
  | nil => rfl
  | cons hsd _ ih => rw [List.map_cons, List.map_cons, hsd.1, ih]

/-- Nothing is decided at the start. -/
theorem consistent_start {p : SearchProblem} (hp : p.WellFormed)
    (h : ∀ c ∈ p.constraints, p.evaluate p.start c ≠ .fails) : p.Consistent p.start where
  narrowed := List.forall₂_same.mpr fun d _ => ⟨rfl, List.Sublist.refl _⟩
  distinct := by
    intro j k d e x hd _ _ _ _ hslot
    have := hp.undecided d (List.mem_of_getElem? hd)
    rw [hslot] at this
    simp [Slot.isUndecided] at this
  admitted := fun c hc _ => h c hc

/-- Dropping options keeps decisions consistent. -/
theorem Consistent.shrinks {p : SearchProblem} (hp : p.WellFormed) {ds es : List Decision}
    (h : p.Consistent ds) (hshrinks : Shrinks ds es) : p.Consistent es where
  narrowed := forall₂_comp
    (fun _ _ _ hsd hde => ⟨hde.about.trans hsd.1, hde.options.trans hsd.2⟩) h.narrowed hshrinks
  distinct := by
    intro j k d' e' x hd' he' hjk hdist hrel hslot hmem
    obtain ⟨hlen, hplace⟩ := forall₂_iff_getElem?.mp hshrinks
    have hj : j < ds.length := by rw [hlen]; exact (List.getElem?_eq_some_iff.mp hd').1
    have hk : k < ds.length := by rw [hlen]; exact (List.getElem?_eq_some_iff.mp he').1
    have hd := hplace j _ d' (List.getElem?_eq_getElem hj) hd'
    have he := hplace k _ e' (List.getElem?_eq_getElem hk) he'
    have hundecided : ds[j].slot.isUndecided = false := by
      rw [← hd.isUndecided, hslot]
      rfl
    have hsame := hd.eq_of_decided hundecided
    refine h.distinct j k _ _ x (List.getElem?_eq_getElem hj) (List.getElem?_eq_getElem hk) hjk
      ?_ ?_ ?_ (he.options.subset hmem)
    · rw [← hsame]; exact hdist
    · rw [← hsame, ← he.about]; exact hrel
    · rw [← hsame]; exact hslot
  admitted := by
    intro c hc hdecided
    have hds : ∀ d ∈ ds, d.about.relation.property ∈ c.reads → d.slot.isUndecided = false := by
      intro d hd hread
      obtain ⟨e, he, hde⟩ := exists_of_forall₂_left hshrinks hd
      rw [← hde.isUndecided]
      exact hdecided e he (by rw [hde.about]; exact hread)
    have hagree : AgreeOn c.reads ds es := by
      refine forall₂_iff_getElem?.mpr ⟨List.Forall₂.length_eq hshrinks, fun k d e hd he => ?_⟩
      have hde := (forall₂_iff_getElem?.mp hshrinks).2 k d e hd he
      exact ⟨hde.about, fun hread =>
        hde.eq_of_decided (hds d (List.mem_of_getElem? hd) hread)⟩
    rw [← evaluate_congr hp hc hagree]
    exact h.admitted c hc hds

/-! ### Decisions -/

theorem getElem?_branching {ds : List Decision} {b : Branching} (hb : branching? 0 ds = some b) :
    ds[b.place]? = some ⟨b.about, .undecided b.options⟩ := by
  simpa using (getElem?_of_branching? hb).2

theorem decide_eq_some {p : SearchProblem} {ds next : List Decision} {b : Branching}
    {x : Option IndividualId} (h : p.decide ds b x = some next) :
    ∃ mid, reserve (place ds b.place b.about (.decided x)) b.place b.about x = some mid ∧
      p.admits mid b.about = true ∧ p.propagate mid = some next := by
  simp only [decide, Option.bind_eq_bind, Option.bind_eq_some_iff] at h
  obtain ⟨mid, hmid, hnext⟩ := h
  split at hnext
  · next hadmits => exact ⟨mid, hmid, hadmits, hnext⟩
  · simp at hnext

/-- What reserving the choice of a variable that has just been decided leads to, place by place:
the choice stands, and it is taken away from the variables that have to be distinct. -/
structure Reserved (ds : List Decision) (b : Branching) (x : Option IndividualId)
    (mid : List Decision) : Prop where
  length : mid.length = ds.length
  branch : ds[b.place]? = some ⟨b.about, .undecided b.options⟩
  self : mid[b.place]? = some ⟨b.about, .decided x⟩
  other : ∀ (j : Nat) (d : Decision), j ≠ b.place → ds[j]? = some d →
    mid[j]? = reservedAt b.place b.about x j d

theorem reserved_of_reserve {ds mid : List Decision} {b : Branching} {x : Option IndividualId}
    (hb : ds[b.place]? = some ⟨b.about, .undecided b.options⟩)
    (h : reserve (place ds b.place b.about (.decided x)) b.place b.about x = some mid) :
    Reserved ds b x mid := by
  have hlt := (List.getElem?_eq_some_iff.mp hb).1
  refine ⟨?_, hb, ?_, ?_⟩
  · rw [← List.Forall₂.length_eq (reserve_shrinks h), place, List.length_set]
  · rw [getElem?_reserve h (d := ⟨b.about, .decided x⟩) (by rw [place, List.getElem?_set_self hlt])]
    cases x with
    | none => rfl
    | some i => rw [reservedAt, if_neg fun hc => hc.2.1 rfl]
  · intro j d hj hd
    exact getElem?_reserve h (by rw [place, List.getElem?_set_ne hj.symm, hd])

namespace Reserved

variable {p : SearchProblem} {ds mid : List Decision} {b : Branching} {x : Option IndividualId}

/-- The decision at another place before. -/
theorem before (h : Reserved ds b x mid) {j : Nat} {e : Decision} (hj : j ≠ b.place)
    (he : mid[j]? = some e) : ∃ d, ds[j]? = some d ∧ reservedAt b.place b.about x j d = some e := by
  have hlt : j < ds.length := by rw [← h.length]; exact (List.getElem?_eq_some_iff.mp he).1
  refine ⟨ds[j], List.getElem?_eq_getElem hlt, ?_⟩
  rw [← h.other j _ hj (List.getElem?_eq_getElem hlt), he]

theorem narrowed (h : Reserved ds b x mid) (hds : p.Consistent ds) (hx : x ∈ b.options) :
    List.Forall₂ (fun s d => d.about = s.about ∧ d.slot.options.Sublist s.slot.options)
      p.start mid := by
  refine forall₂_iff_getElem?.mpr ⟨?_, ?_⟩
  · rw [h.length, List.Forall₂.length_eq hds.narrowed]
  · intro j s e hs he
    by_cases hj : j = b.place
    · subst hj
      rw [h.self, Option.some.injEq] at he
      obtain ⟨habout, hsub⟩ := (forall₂_iff_getElem?.mp hds.narrowed).2 _ s _ hs h.branch
      rw [← he]
      exact ⟨habout, List.singleton_sublist.mpr (hsub.subset hx)⟩
    · obtain ⟨d, hd, hde⟩ := h.before hj he
      obtain ⟨habout, hsub⟩ := (forall₂_iff_getElem?.mp hds.narrowed).2 j s d hs hd
      have hshrinks := reservedAt_shrinksTo hde
      exact ⟨hshrinks.about.trans habout, hshrinks.options.trans hsub⟩

theorem distinct (h : Reserved ds b x mid) (hds : p.Consistent ds) (hx : x ∈ b.options)
    {j k : Nat} {d' e' : Decision} {y : IndividualId} (hd' : mid[j]? = some d')
    (he' : mid[k]? = some e') (hjk : j ≠ k) (hdist : d'.about.isDistinct = true)
    (hrel : e'.about.relation = d'.about.relation) (hslot : d'.slot = .decided (some y)) :
    some y ∉ e'.slot.options := by
  intro hmem
  by_cases hj : j = b.place
  · -- the new choice was taken away from the others
    subst hj
    rw [h.self, Option.some.injEq] at hd'
    subst hd'
    obtain rfl : x = some y := by simpa using hslot
    obtain ⟨e, he, hee'⟩ := h.before (Ne.symm hjk) he'
    have hrel' : e.about.relation = b.about.relation := by
      rw [← (reservedAt_shrinksTo hee').about]
      exact hrel
    rw [reservedAt, if_pos ⟨hdist, Ne.symm hjk, hrel'⟩, Option.map_eq_some_iff] at hee'
    obtain ⟨t, ht, rfl⟩ := hee'
    rw [Slot.options_without ht] at hmem
    simp at hmem
  · -- the others could not choose what had been decided before
    obtain ⟨d, hd, hdd'⟩ := h.before hj hd'
    have hshrinks := reservedAt_shrinksTo hdd'
    have hundecided : d.slot.isUndecided = false := by
      rw [← hshrinks.isUndecided, hslot]
      rfl
    obtain rfl := hshrinks.eq_of_decided hundecided
    by_cases hk : k = b.place
    · subst hk
      rw [h.self, Option.some.injEq] at he'
      subst he'
      rw [Slot.options, List.mem_singleton] at hmem
      refine hds.distinct j _ _ _ y hd h.branch hjk hdist hrel hslot ?_
      rw [hmem]
      exact hx
    · obtain ⟨e, he, hee'⟩ := h.before hk he'
      have hshrinks' := reservedAt_shrinksTo hee'
      refine hds.distinct j k _ e y hd he hjk hdist ?_ hslot (hshrinks'.options.subset hmem)
      rw [← hshrinks'.about]
      exact hrel

/-- A constraint whose variables are decided afterwards and do not include the new one has the same
variables before. -/
theorem agreeOn (h : Reserved ds b x mid) {ps : List PropertyId}
    (hnew : b.about.relation.property ∉ ps)
    (hdecided : ∀ d ∈ mid, d.about.relation.property ∈ ps → d.slot.isUndecided = false) :
    AgreeOn ps ds mid := by
  refine forall₂_iff_getElem?.mpr ⟨h.length.symm, fun j d e hd he => ?_⟩
  by_cases hj : j = b.place
  · subst hj
    rw [h.branch, Option.some.injEq] at hd
    rw [h.self, Option.some.injEq] at he
    rw [← hd, ← he]
    exact ⟨rfl, fun hr => absurd hr hnew⟩
  · have hmem := List.mem_of_getElem? he
    rw [h.other j d hj hd] at he
    have hshrinks := reservedAt_shrinksTo he
    refine ⟨hshrinks.about, fun hr => hshrinks.eq_of_decided ?_⟩
    rw [← hshrinks.isUndecided]
    exact hdecided e hmem (by rw [hshrinks.about]; exact hr)

end Reserved

/-- **A decision keeps the decisions consistent.** -/
theorem decide_consistent {p : SearchProblem} (hp : p.WellFormed) {ds next : List Decision}
    {b : Branching} {x : Option IndividualId} (h : p.Consistent ds)
    (hb : branching? 0 ds = some b) (hx : x ∈ b.options) (hdecide : p.decide ds b x = some next) :
    p.Consistent next := by
  obtain ⟨mid, hmid, hadmits, hnext⟩ := decide_eq_some hdecide
  have hreserved := reserved_of_reserve (getElem?_branching hb) hmid
  refine Consistent.shrinks hp ?_ (propagate_shrinks hnext)
  refine ⟨hreserved.narrowed h hx, fun j k d e y hd he hjk hdist hrel hslot =>
    hreserved.distinct h hx hd he hjk hdist hrel hslot, ?_⟩
  intro c hc hdecided
  by_cases hread : b.about.relation.property ∈ c.reads
  · have := List.all_eq_true.mp hadmits c hc
    simpa [hread] using this
  · -- the constraint does not depend on the new choice
    have hagree := hreserved.agreeOn hread hdecided
    rw [← evaluate_congr hp hc hagree]
    refine h.admitted c hc fun d hd hr => ?_
    obtain ⟨e, he, hde⟩ := exists_of_forall₂_left hagree hd
    rw [← hde.2 hr]
    exact hdecided e he (by rw [hde.1]; exact hr)

theorem Leaves.of_shrinks {p : SearchProblem} {ds es : List Decision} {m : Model}
    (hshrinks : Shrinks ds es) (h : p.Leaves es m) : p.Leaves ds m where
  about := by rw [← h.about, hshrinks.map_about]
  fits := forall₂_comp (fun _ _ _ hde hx => hde.options.subset hx) hshrinks h.fits

/-- A solution stays among the choices when its choice is decided. -/
theorem decide_leaves {p : SearchProblem} (hp : p.WellFormed) {ds : List Decision} {m : Model}
    {b : Branching} {x : Option IndividualId} (hm : p.IsSolution m) (h : p.Leaves ds m)
    (hb : branching? 0 ds = some b) (hx : m[b.place]? = some x) :
    ∃ next, p.decide ds b x = some next ∧ p.Leaves next m := by
  have hbranch := getElem?_branching hb
  have hplace := h.place (t := .decided x) hbranch hx (List.mem_singleton_self x)
  obtain ⟨mid, hmid, hleaves⟩ := reserve_leaves (d := ⟨b.about, .decided x⟩) hp hm hplace
    (by rw [place, List.getElem?_set_self (List.getElem?_eq_some_iff.mp hbranch).1]) hx
  obtain ⟨next, hnext, hleaves'⟩ := propagate_leaves hp hm hleaves
  refine ⟨next, ?_, hleaves'⟩
  rw [decide, hmid]
  simp only [Option.bind_eq_bind, Option.bind_some]
  rw [if_pos (hleaves.admits hm _), hnext]

/-- The models that a decision leaves are those with its choice. -/
theorem leaves_of_decide {p : SearchProblem} {ds next : List Decision} {m : Model}
    {b : Branching} {x : Option IndividualId} (hb : branching? 0 ds = some b)
    (hx : x ∈ b.options) (hdecide : p.decide ds b x = some next) (h : p.Leaves next m) :
    p.Leaves ds m ∧ m[b.place]? = some x := by
  have hbranch := getElem?_branching hb
  have hlt := (List.getElem?_eq_some_iff.mp hbranch).1
  obtain ⟨mid, hmid, -, hnext⟩ := decide_eq_some hdecide
  have hplace := Leaves.of_shrinks ((reserve_shrinks hmid).trans (propagate_shrinks hnext)) h
  have hpoint := forall₂_iff_getElem?.mp hplace.fits
  constructor
  · constructor
    · rw [← hplace.about]
      refine List.ext_getElem? fun j => ?_
      rw [place, List.map_set, List.getElem?_set]
      split
      · next hj =>
        rw [← hj, List.length_map, if_pos hlt, List.getElem?_map, hbranch, Option.map_some]
      · rfl
    · refine forall₂_iff_getElem?.mpr ⟨?_, fun j d y hd hy => ?_⟩
      · rw [← hpoint.1, place, List.length_set]
      · by_cases hj : j = b.place
        · subst hj
          have hmem := hpoint.2 _ ⟨b.about, .decided x⟩ y
            (by rw [place, List.getElem?_set_self hlt]) hy
          rw [hbranch, Option.some.injEq] at hd
          rw [← hd, List.mem_singleton.mp hmem]
          exact hx
        · exact hpoint.2 j d y (by rw [place, List.getElem?_set_ne (Ne.symm hj), hd]) hy
  · have hltm : b.place < m.length := by rw [← hpoint.1, place, List.length_set]; exact hlt
    have hmem := hpoint.2 b.place ⟨b.about, .decided x⟩ _
      (by rw [place, List.getElem?_set_self hlt]) (List.getElem?_eq_getElem hltm)
    rw [List.getElem?_eq_getElem hltm, List.mem_singleton.mp hmem]

/-! ### Complete decisions -/

theorem decided_of_branching? {ds : List Decision} {n : Nat} (h : branching? n ds = none) :
    ∀ d ∈ ds, d.slot.isUndecided = false := by
  induction ds generalizing n with
  | nil => simp
  | cons d ds ih =>
    obtain ⟨v, s⟩ := d
    cases s with
    | decided x =>
      intro d hd
      rcases List.mem_cons.mp hd with rfl | hd
      · rfl
      · exact ih h d hd
    | undecided options =>
      rw [branching?] at h
      split at h
      · split at h <;> simp at h
      · simp at h

/-- The choices that decisions consist of. -/
def choices (ds : List Decision) : Model := ds.map fun d => d.slot.options.head?.join

theorem head?_options_of_decided {d : Decision} (h : d.slot.isUndecided = false) :
    d.slot = .decided d.slot.options.head?.join := by
  obtain ⟨x, hx⟩ := Slot.eq_decided_of_not_isUndecided h
  rw [hx]
  rfl

theorem fits_choices_iff {ds : List Decision} (h : ∀ d ∈ ds, d.slot.isUndecided = false)
    {m : Model} : Fits ds m ↔ m = choices ds := by
  induction ds generalizing m with
  | nil => simp [Fits, choices]
  | cons d ds ih =>
    have hd := head?_options_of_decided (h d List.mem_cons_self)
    have ih := fun m => ih (m := m) fun e he => h e (List.mem_cons_of_mem _ he)
    rw [Fits, List.forall₂_cons_left_iff, choices, List.map_cons]
    constructor
    · rintro ⟨x, m, hx, hm, rfl⟩
      rw [hd, Slot.options, List.mem_singleton] at hx
      rw [← hx, (ih m).mp hm]
      rfl
    · rintro rfl
      refine ⟨_, _, ?_, (ih _).mpr rfl, rfl⟩
      rw [hd, Slot.options]
      exact List.mem_singleton_self _

theorem decideAll_choices {ds : List Decision} (h : ∀ d ∈ ds, d.slot.isUndecided = false) :
    decideAll ds (choices ds) = ds := by
  induction ds with
  | nil => rfl
  | cons d ds ih =>
    have hd := head?_options_of_decided (h d List.mem_cons_self)
    rw [choices, List.map_cons, decideAll, List.zipWith_cons_cons, ← hd]
    exact congrArg _ (ih fun e he => h e (List.mem_cons_of_mem _ he))

/-- **Consistent decisions about all variables are a solution.** -/
theorem Consistent.isSolution {p : SearchProblem} {ds : List Decision} (h : p.Consistent ds)
    (hdecided : ∀ d ∈ ds, d.slot.isUndecided = false) : p.IsSolution (choices ds) := by
  have hfits : Fits ds (choices ds) := (fits_choices_iff hdecided).mpr rfl
  have hleaves : p.Leaves ds (choices ds) := ⟨h.map_about, hfits⟩
  -- a choice is found at the place of its variable
  have hat : ∀ {v : Variable} {x : IndividualId}, p.Assigns (choices ds) v x →
      ∃ (k : Nat) (d : Decision), ds[k]? = some d ∧ d.about = v ∧ d.slot = .decided (some x) ∧
        p.start[k]?.map Decision.about = some v := by
    rintro v x ⟨k, hk, hx⟩
    have hk' := hk
    rw [← List.getElem?_map, ← h.map_about, List.getElem?_map, Option.map_eq_some_iff] at hk'
    obtain ⟨d, hd, hdv⟩ := hk'
    refine ⟨k, d, hd, hdv, ?_, hk⟩
    have hchoice : (choices ds)[k]? = some d.slot.options.head?.join := by
      rw [choices, List.getElem?_map, hd, Option.map_some]
    rw [hx, Option.some.injEq] at hchoice
    rw [hchoice]
    exact head?_options_of_decided (hdecided d (List.mem_of_getElem? hd))
  refine ⟨?_, ?_, ?_⟩
  · exact forall₂_comp (fun _ _ _ hsd hx => hsd.2.subset hx) h.narrowed hfits
  · intro v v' x hdist hrel hv hv'
    obtain ⟨j, d, hd, rfl, hslot, hj⟩ := hat hv
    obtain ⟨k, e, he, rfl, hslot', hk⟩ := hat hv'
    by_cases hjk : j = k
    · subst hjk
      rw [hj] at hk
      exact Option.some.inj hk
    · refine absurd ?_ (h.distinct j k d e x hd he hjk hdist hrel.symm hslot)
      rw [hslot']
      exact List.mem_singleton_self _
  · intro c hc
    rw [← hleaves.decideAll_eq, decideAll_choices hdecided]
    exact h.admitted c hc fun d hd _ => hdecided d hd

/-! ### Enumeration -/

/-- A list holds the first members of a set of models: each once, and all of them unless the limit
is reached. -/
structure Enumerates (S : Model → Prop) (limit : Nat) (found : List Model) : Prop where
  nodup : found.Nodup
  sound : ∀ m ∈ found, S m
  length_le : found.length ≤ limit
  complete : found.length < limit → ∀ m, S m → m ∈ found

theorem Enumerates.congr {S T : Model → Prop} {limit : Nat} {found : List Model}
    (h : Enumerates S limit found) (hST : ∀ m, S m ↔ T m) : Enumerates T limit found where
  nodup := h.nodup
  sound := fun m hm => (hST m).mp (h.sound m hm)
  length_le := h.length_le
  complete := fun hlt m hm => h.complete hlt m ((hST m).mpr hm)

/-- Members of a larger set need not be found when the limit is reached. -/
theorem Enumerates.of_full {S T : Model → Prop} {limit : Nat} {found : List Model}
    (h : Enumerates S limit found) (hST : ∀ m, S m → T m) (hfull : limit ≤ found.length) :
    Enumerates T limit found where
  nodup := h.nodup
  sound := fun m hm => hST m (h.sound m hm)
  length_le := h.length_le
  complete := fun hlt => absurd hlt (by omega)

theorem Enumerates.append {S T : Model → Prop} {limit : Nat} {found more : List Model}
    (h : Enumerates S limit found) (h' : Enumerates T (limit - found.length) more)
    (hlt : found.length < limit) (hdisjoint : ∀ m, S m → ¬T m) :
    Enumerates (fun m => S m ∨ T m) limit (found ++ more) where
  nodup := List.Nodup.append h.nodup h'.nodup fun m hm hm' =>
    hdisjoint m (h.sound m hm) (h'.sound m hm')
  sound := by
    intro m hm
    rcases List.mem_append.mp hm with hm | hm
    · exact Or.inl (h.sound m hm)
    · exact Or.inr (h'.sound m hm)
  length_le := by
    have := h'.length_le
    rw [List.length_append]
    omega
  complete := by
    intro hmore m hm
    rw [List.length_append] at hmore
    rcases hm with hm | hm
    · exact List.mem_append_left _ (h.complete hlt m hm)
    · exact List.mem_append_right _ (h'.complete (by omega) m hm)

/-- The solutions that decisions leave. -/
def Remaining (p : SearchProblem) (ds : List Decision) (m : Model) : Prop :=
  p.IsSolution m ∧ p.Leaves ds m

/-- What is found after the branch of one more option. -/
def branchStep (p : SearchProblem) (limit : Nat) (ds : List Decision) (b : Branching)
    (found : List Model) (x : Option IndividualId) : List Model :=
  if limit ≤ found.length then found
  else
    match p.decide ds b x with
    | none => found
    | some next => found ++ p.firstModels (limit - found.length) next

theorem firstModels_of_decided {p : SearchProblem} {limit : Nat} {ds : List Decision}
    (hb : branching? 0 ds = none) : p.firstModels limit ds = [choices ds] := by
  rw [firstModels]
  split
  · rfl
  · next b hb' =>
    rw [hb] at hb'
    simp at hb'

theorem firstModels_of_branching {p : SearchProblem} {limit : Nat} {ds : List Decision}
    {b : Branching} (hb : branching? 0 ds = some b) :
    p.firstModels limit ds = b.options.foldl (p.branchStep limit ds b) [] := by
  rw [firstModels]
  split
  · next hb' =>
    rw [hb] at hb'
    simp at hb'
  · next b' hb' =>
    rw [hb, Option.some.injEq] at hb'
    subst hb'
    congr
    funext found x
    rw [branchStep]
    split
    · rfl
    · split <;> simp_all

/-- The solutions that decisions leave with one of the given choices for a variable. -/
def Branched (p : SearchProblem) (ds : List Decision) (b : Branching)
    (xs : List (Option IndividualId)) (m : Model) : Prop :=
  p.Remaining ds m ∧ ∃ x ∈ xs, m[b.place]? = some x

theorem branched_append {p : SearchProblem} {ds : List Decision} {b : Branching}
    {xs : List (Option IndividualId)} {y : Option IndividualId} {m : Model} :
    p.Branched ds b (xs ++ [y]) m ↔
      p.Branched ds b xs m ∨ p.Remaining ds m ∧ m[b.place]? = some y := by
  simp only [Branched, List.mem_append, List.mem_singleton, or_and_right, exists_or,
    exists_eq_left, and_or_left]

/-- The solutions that a decision leaves. -/
theorem remaining_decide_iff {p : SearchProblem} (hp : p.WellFormed) {ds next : List Decision}
    {b : Branching} {y : Option IndividualId} (hb : branching? 0 ds = some b)
    (hy : y ∈ b.options) (hdecide : p.decide ds b y = some next) {m : Model} :
    p.Remaining next m ↔ p.Remaining ds m ∧ m[b.place]? = some y := by
  constructor
  · intro hm
    obtain ⟨hleaves, hmy⟩ := leaves_of_decide hb hy hdecide hm.2
    exact ⟨⟨hm.1, hleaves⟩, hmy⟩
  · rintro ⟨hm, hmy⟩
    obtain ⟨next', hnext', hleaves⟩ := decide_leaves hp hm.1 hm.2 hb hmy
    rw [hdecide, Option.some.injEq] at hnext'
    exact ⟨hm.1, hnext' ▸ hleaves⟩

/-- One more branch is enumerated. -/
theorem branchStep_enumerates {p : SearchProblem} (hp : p.WellFormed) {limit : Nat}
    {ds : List Decision} {b : Branching} (hb : branching? 0 ds = some b)
    {xs : List (Option IndividualId)} {y : Option IndividualId} (hy : y ∈ b.options)
    (hnew : y ∉ xs)
    (hbranch : ∀ next, p.decide ds b y = some next → ∀ limit, 0 < limit →
      Enumerates (p.Remaining next) limit (p.firstModels limit next))
    {found : List Model} (h : Enumerates (p.Branched ds b xs) limit found) :
    Enumerates (p.Branched ds b (xs ++ [y])) limit (p.branchStep limit ds b found y) := by
  rw [branchStep]
  split
  · next hfull => exact h.of_full (fun m hm => branched_append.mpr (Or.inl hm)) hfull
  next hlt =>
  rw [not_le] at hlt
  cases hdecide : p.decide ds b y with
  | none =>
    refine h.congr fun m => ?_
    -- no solution makes this choice
    have hnone : ¬(p.Remaining ds m ∧ m[b.place]? = some y) := by
      rintro ⟨hm, hmy⟩
      obtain ⟨next, hnext, -⟩ := decide_leaves hp hm.1 hm.2 hb hmy
      rw [hdecide] at hnext
      simp at hnext
    rw [branched_append, or_iff_left hnone]
  | some next =>
    have henum := hbranch next hdecide (limit - found.length) (by omega)
    refine (h.append henum hlt ?_).congr fun m => ?_
    · rintro m ⟨-, x, hx, hmx⟩ hm
      have hmy := ((remaining_decide_iff hp hb hy hdecide).mp hm).2
      rw [hmx, Option.some.injEq] at hmy
      exact hnew (hmy ▸ hx)
    · rw [branched_append, remaining_decide_iff hp hb hy hdecide]

/-- One branch after the other is enumerated, the limit being shared. -/
theorem foldl_branchStep_enumerates {p : SearchProblem} (hp : p.WellFormed) {limit : Nat}
    {ds : List Decision} {b : Branching} (hb : branching? 0 ds = some b)
    (hbranch : ∀ x ∈ b.options, ∀ next, p.decide ds b x = some next → ∀ limit, 0 < limit →
      Enumerates (p.Remaining next) limit (p.firstModels limit next))
    {xs ys : List (Option IndividualId)} {found : List Model} (hnodup : (xs ++ ys).Nodup)
    (hys : ∀ x ∈ ys, x ∈ b.options) (h : Enumerates (p.Branched ds b xs) limit found) :
    Enumerates (p.Branched ds b (xs ++ ys)) limit (ys.foldl (p.branchStep limit ds b) found) := by
  induction ys generalizing xs found with
  | nil =>
    rw [List.append_nil]
    exact h
  | cons y ys ih =>
    rw [List.append_cons] at hnodup ⊢
    have hy : y ∈ b.options := hys y List.mem_cons_self
    have hnew : y ∉ xs := by
      intro hy
      have := List.nodup_append.mp (List.nodup_append.mp hnodup).1
      exact this.2.2 y hy y (List.mem_singleton_self y) rfl
    exact ih hnodup (fun x hx => hys x (List.mem_cons_of_mem _ hx))
      (branchStep_enumerates hp hb hy hnew (hbranch y hy) h)

/-- **From consistent decisions the search finds the solutions that they leave.** -/
theorem firstModels_enumerates {p : SearchProblem} (hp : p.WellFormed) :
    ∀ (limit : Nat) (ds : List Decision), 0 < limit → p.Consistent ds →
      Enumerates (p.Remaining ds) limit (p.firstModels limit ds) := by
  intro limit ds
  generalize hn : (undecided ds).count true = n
  -- every decision leaves fewer variables undecided
  induction n using Nat.strong_induction_on generalizing limit ds with
  | _ n ih =>
    intro hlimit hds
    cases hb : branching? 0 ds with
    | none =>
      have hdecided := decided_of_branching? hb
      have hfits := fun m => fits_choices_iff hdecided (m := m)
      rw [firstModels_of_decided hb]
      refine ⟨List.nodup_singleton _, ?_, hlimit, fun _ m hm => ?_⟩
      · intro m hm
        rw [List.mem_singleton.mp hm]
        exact ⟨hds.isSolution hdecided, hds.map_about, (hfits _).mpr rfl⟩
      · rw [(hfits m).mp hm.2.fits]
        exact List.mem_singleton_self _
    | some b =>
      have hbranch := getElem?_branching hb
      have hoptions : b.options.Nodup := by
        obtain ⟨s, hs, -, hsub⟩ := exists_of_forall₂_right hds.narrowed
          (List.mem_of_getElem? hbranch)
        exact (hp.options_nodup s hs).sublist hsub
      have henum : Enumerates (p.Branched ds b ([] ++ b.options)) limit
          (b.options.foldl (p.branchStep limit ds b) []) := by
        refine foldl_branchStep_enumerates hp hb ?_ hoptions (fun _ hx => hx)
          ⟨List.nodup_nil, by simp, by simp, by simp [Branched]⟩
        intro x hx next hdecide limit' hlimit'
        exact ih _ (hn ▸ count_undecided_decide hb hdecide) limit' next rfl hlimit'
          (decide_consistent hp hds hb hx hdecide)
      rw [firstModels_of_branching hb]
      refine henum.congr fun m => ⟨fun hm => hm.1, fun hm => ⟨hm, ?_⟩⟩
      have hlt : b.place < m.length := by
        rw [← hm.2.fits.length_eq]
        exact (List.getElem?_eq_some_iff.mp hbranch).1
      exact ⟨m[b.place], hm.2.fits.mem hbranch (List.getElem?_eq_getElem hlt),
        List.getElem?_eq_getElem hlt⟩

/-! ### The answer of the search -/

/-- The models that a search comes across. -/
def foundModels (p : SearchProblem) (limit : Nat) : List Model :=
  (p.propagate p.start).elim [] (p.firstModels limit)

theorem foundModels_enumerates {p : SearchProblem} (hp : p.WellFormed) {limit : Nat}
    (hlimit : 0 < limit) (h : ∀ c ∈ p.constraints, p.evaluate p.start c ≠ .fails) :
    Enumerates p.IsSolution limit (p.foundModels limit) := by
  have hleaves : ∀ {m}, p.IsSolution m → p.Leaves p.start m := fun hm => ⟨rfl, hm.fits⟩
  rw [foundModels]
  cases hds : p.propagate p.start with
  | none =>
    refine ⟨List.nodup_nil, by simp, Nat.zero_le _, fun _ m hm => ?_⟩
    obtain ⟨next, hnext, -⟩ := propagate_leaves hp hm (hleaves hm)
    rw [hds] at hnext
    simp at hnext
  | some ds =>
    refine (firstModels_enumerates hp limit ds hlimit ?_).congr fun m => ⟨fun hm => hm.1, ?_⟩
    · exact (consistent_start hp h).shrinks hp (propagate_shrinks hds)
    · intro hm
      obtain ⟨next, hnext, hnext'⟩ := propagate_leaves hp hm (hleaves hm)
      rw [hds, Option.some.injEq] at hnext
      exact ⟨hm, hnext ▸ hnext'⟩

theorem finite_solutions (p : SearchProblem) : {m | p.IsSolution m}.Finite := by
  refine (List.finite_toSet (List.sections (p.start.map fun d => d.slot.options))).subset ?_
  intro m hm
  refine List.mem_sections.mpr ?_
  rw [List.forall₂_map_right_iff]
  exact hm.fits.flip

theorem Enumerates.length_eq {S : Model → Prop} {limit : Nat} {found : List Model}
    (h : Enumerates S limit found) (hfinite : {m | S m}.Finite) :
    found.length = min {m | S m}.ncard limit := by
  have hcard : (found.toFinset : Set Model).ncard = found.length := by
    rw [Set.ncard_coe_finset, List.toFinset_card_of_nodup h.nodup]
  have hsub : (found.toFinset : Set Model) ⊆ {m | S m} :=
    fun m hm => h.sound m (List.mem_toFinset.mp hm)
  have hle := Set.ncard_le_ncard hsub hfinite
  rw [hcard] at hle
  rcases Nat.lt_or_ge found.length limit with hlt | hge
  · have heq : {m | S m} = (found.toFinset : Set Model) :=
      Set.Subset.antisymm (fun m hm => List.mem_toFinset.mpr (h.complete hlt m hm)) hsub
    rw [heq, hcard]
    omega
  · have := h.length_le
    omega

theorem mem_commonFacts {p : SearchProblem} {m : Model} {others : List Model} {f : Fact} :
    f ∈ p.commonFacts m others ↔ ∃ (k : Nat) (d : Decision) (x : IndividualId),
      p.start[k]? = some d ∧ (∀ m' ∈ m :: others, m'[k]? = some (some x)) ∧
        f = factOf d.about x := by
  simp only [commonFacts, List.mem_filterMap]
  constructor
  · rintro ⟨⟨⟨d, choice⟩, k⟩, hmem, hf⟩
    rw [List.mem_zipIdx_iff_getElem?, List.getElem?_zip_eq_some] at hmem
    obtain ⟨x, rfl, hf⟩ := Option.bind_eq_some_iff.mp hf
    split at hf
    · next hall =>
      refine ⟨k, d, x, hmem.1, ?_, (Option.some.inj hf).symm⟩
      intro m' hm'
      rcases List.mem_cons.mp hm' with rfl | hm'
      · exact hmem.2
      · simpa using List.all_eq_true.mp hall m' hm'
    · simp at hf
  · rintro ⟨k, d, x, hd, hall, rfl⟩
    refine ⟨⟨⟨d, some x⟩, k⟩, ?_, ?_⟩
    · rw [List.mem_zipIdx_iff_getElem?, List.getElem?_zip_eq_some]
      exact ⟨hd, hall m List.mem_cons_self⟩
    · rw [Option.bind_some, if_pos]
      exact List.all_eq_true.mpr fun m' hm' =>
        decide_eq_true (hall m' (List.mem_cons_of_mem _ hm'))

/-- The facts that all found models have in common are those of the common choices. -/
theorem mem_commonFacts_iff {p : SearchProblem} (hp : p.WellFormed) {m : Model}
    {others : List Model} (h : ∀ m', m' ∈ m :: others ↔ p.IsSolution m') {f : Fact} :
    f ∈ p.commonFacts m others ↔ ∃ v x, p.IsCommon v x ∧ f = factOf v x := by
  rw [mem_commonFacts]
  constructor
  · rintro ⟨k, d, x, hd, hall, rfl⟩
    refine ⟨d.about, x, ⟨List.mem_map.mpr ⟨d, List.mem_of_getElem? hd, rfl⟩, ?_⟩, rfl⟩
    intro m' hm'
    exact ⟨k, by rw [hd, Option.map_some], hall m' ((h m').mpr hm')⟩
  · rintro ⟨v, x, ⟨-, hall⟩, rfl⟩
    obtain ⟨k, hk, -⟩ := hall m ((h m).mp List.mem_cons_self)
    obtain ⟨d, hd, rfl⟩ := Option.map_eq_some_iff.mp hk
    refine ⟨k, d, x, hd, fun m' hm' => ?_, rfl⟩
    obtain ⟨k', hk', hx⟩ := hall m' ((h m').mp hm')
    rw [hp.place_inj hk hk']
    exact hx

theorem isSolution_not_of_fails {p : SearchProblem} {c : Constraint} (hc : c ∈ p.constraints)
    (hfails : p.evaluate p.start c = .fails) (m : Model) : ¬p.IsSolution m := by
  intro hm
  refine hm.admitted c hc ?_
  rw [p.evaluate_approximates hm.fits c (by rw [hfails]; simp), hfails]

/-- The answer of a search, in terms of the set of all solutions. -/
theorem solve_eq {p : SearchProblem} (hp : p.WellFormed) (maxModels : Nat) :
    (∃ e, p.solve maxModels = .error e ∧ ∀ m, ¬p.IsSolution m) ∨
    ∃ entailed, p.solve maxModels = .ok {
        models := min {m | p.IsSolution m}.ncard (max maxModels 1)
        isCapped := Decidable.decide (max maxModels 1 ≤ {m | p.IsSolution m}.ncard)
        entailed } ∧
      (∃ m, p.IsSolution m) ∧
      (max maxModels 1 ≤ {m | p.IsSolution m}.ncard → entailed = []) ∧
      ({m | p.IsSolution m}.ncard < max maxModels 1 →
        ∀ f, f ∈ entailed ↔ ∃ v x, p.IsCommon v x ∧ f = factOf v x) := by
  rw [solve]
  split
  · next c hc =>
    have hfails : p.evaluate p.start c = .fails := by simpa using List.find?_some hc
    exact Or.inl ⟨_, rfl, isSolution_not_of_fails (List.mem_of_find?_eq_some hc) hfails⟩
  · next hnone =>
    have hadmitted : ∀ c ∈ p.constraints, p.evaluate p.start c ≠ .fails := by
      intro c hc
      simpa using List.find?_eq_none.mp hnone c hc
    have hlimit : 0 < max maxModels 1 := by omega
    have henum := foundModels_enumerates hp hlimit hadmitted
    have hlen := henum.length_eq p.finite_solutions
    rw [foundModels] at henum hlen
    dsimp only
    generalize (p.propagate p.start).elim [] (p.firstModels (max maxModels 1)) = found
      at henum hlen
    cases found with
    | nil =>
      refine Or.inl ⟨_, rfl, fun m hm => ?_⟩
      exact List.not_mem_nil (henum.complete (by rw [List.length_nil]; omega) m hm)
    | cons m others =>
      rw [List.length_cons] at hlen
      refine Or.inr ⟨if max maxModels 1 ≤ others.length + 1 then [] else p.commonFacts m others,
        ?_, ⟨m, henum.sound m List.mem_cons_self⟩, ?_, ?_⟩
      · simp only [hlen, le_min_iff, le_refl, and_true]
      · intro hfull
        rw [if_pos (by omega)]
      · intro hlt f
        rw [if_neg (by omega)]
        refine mem_commonFacts_iff hp fun m' => ⟨henum.sound m', henum.complete ?_ m'⟩
        rw [List.length_cons]
        omega

/-! ### Counted models -/

/-- A search that succeeds counts the model. -/
def Counts (p : SearchProblem) (maxModels : Nat) (m : Model) : Prop :=
  ∃ o, p.solve maxModels = .ok o ∧ o.models = (p.foundModels (max maxModels 1)).length ∧
    m ∈ p.foundModels (max maxModels 1)

theorem ne_fails_of_solve {p : SearchProblem} {maxModels : Nat} {o : Outcome}
    (h : p.solve maxModels = .ok o) :
    ∀ c ∈ p.constraints, p.evaluate p.start c ≠ .fails := by
  rw [solve] at h
  split at h
  · simp at h
  · next hnone =>
    intro c hc
    simpa using List.find?_eq_none.mp hnone c hc

/-- The models that are counted within some limit are the solutions. -/
theorem isSolution_iff_counts {p : SearchProblem} (hp : p.WellFormed) {m : Model} :
    p.IsSolution m ↔ ∃ maxModels, p.Counts maxModels m := by
  constructor
  · intro hm
    have hadmitted : ∀ c ∈ p.constraints, p.evaluate p.start c ≠ .fails :=
      fun c hc hfails => isSolution_not_of_fails hc hfails m hm
    -- a limit that is not reached
    let n := {m | p.IsSolution m}.ncard + 1
    have hlimit : 0 < max n 1 := by omega
    have henum := foundModels_enumerates hp hlimit hadmitted
    have hlen := henum.length_eq p.finite_solutions
    rcases solve_eq hp n with ⟨e, -, hnone⟩ | ⟨entailed, hok, -⟩
    · exact absurd hm (hnone m)
    · exact ⟨n, _, hok, hlen.symm, henum.complete (by omega) m hm⟩
  · rintro ⟨n, o, hok, -, hm⟩
    exact (foundModels_enumerates hp (by omega) (ne_fails_of_solve hok)).sound m hm

/-- What a search that was not stopped early commits to. -/
theorem mem_entailed {p : SearchProblem} (hp : p.WellFormed) {maxModels : Nat} {o : Outcome}
    (h : p.solve maxModels = .ok o) (hcapped : o.isCapped = false) {f : Fact} :
    f ∈ o.entailed ↔ ∃ v x, p.IsCommon v x ∧ f = factOf v x := by
  rcases solve_eq hp maxModels with ⟨e, he, -⟩ | ⟨entailed, hok, -, -, hcommon⟩
  · rw [h] at he
    simp at he
  · rw [h, Except.ok.injEq] at hok
    rw [hok] at hcapped ⊢
    exact hcommon (not_le.mp (of_decide_eq_false hcapped)) f

end SearchProblem

namespace World

/-- **The answer of the search is what the set of all solutions says**: it fails if and only if
there is no solution; below the limit it counts the solutions and lists what they have in common;
at the limit it stops and lists nothing. -/
theorem solve_exact (w : World) (I : Interpretation) (maxModels : Nat) :
    let p := w.searchProblem I
    let limit := max maxModels 1
    let count := {m | p.IsSolution m}.ncard
    {m | p.IsSolution m}.Finite ∧
    ((∃ e, p.solve maxModels = .error e) ↔ ∀ m, ¬p.IsSolution m) ∧
    ((∃ m, p.IsSolution m) → count < limit →
      ∃ entailed, p.solve maxModels = .ok { models := count, isCapped := false, entailed } ∧
        ∀ f, f ∈ entailed ↔ ∃ v x, p.IsCommon v x ∧ f = SearchProblem.factOf v x) ∧
    (limit ≤ count →
      p.solve maxModels = .ok { models := limit, isCapped := true, entailed := [] }) := by
  intro p limit count
  refine ⟨p.finite_solutions, ?_⟩
  rcases SearchProblem.solve_eq (w.searchProblem_wellFormed I) maxModels with
    ⟨e, he, hnone⟩ | ⟨entailed, hok, ⟨m, hm⟩, hcapped, hcommon⟩
  · have hcount : count = 0 := by
      have hempty : {m | p.IsSolution m} = ∅ := Set.eq_empty_of_forall_notMem hnone
      change {m | p.IsSolution m}.ncard = 0
      rw [hempty, Set.ncard_empty]
    refine ⟨iff_of_true ⟨e, he⟩ hnone, ?_, ?_⟩
    · rintro ⟨m, hm⟩
      exact absurd hm (hnone m)
    · intro hle
      omega
  · refine ⟨iff_of_false ?_ fun h => h m hm, ?_, ?_⟩
    · rintro ⟨e, he⟩
      rw [hok] at he
      simp at he
    · intro _ hlt
      refine ⟨entailed, ?_, hcommon hlt⟩
      rw [hok, min_eq_left hlt.le, decide_eq_false (not_le.mpr hlt)]
    · intro hle
      rw [hok, min_eq_right hle, decide_eq_true hle, hcapped hle]

end World

end Ontology
