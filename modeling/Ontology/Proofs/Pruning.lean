import Ontology.Proofs.Solutions

/-!
# Pruning keeps the solutions

Between two decisions the search drops options: those that make a constraint fail at once, and
those that a variable which has to be distinct has taken.  Nothing is decided by this, and no
solution is lost.

## Main definitions

* `SearchProblem.Shrinks` — options were dropped, and nothing else happened.
* `SearchProblem.Leaves` — a model is still among the choices.

## Main results

* `SearchProblem.propagate_shrinks` — propagation only drops options.
* `SearchProblem.propagate_leaves` — **propagation drops no solution.**
-/

namespace Ontology

/-! ### Slots -/

theorem Slot.options_without {x : IndividualId} {s t : Slot} (h : s.without x = some t) :
    t.options = s.options.filter (· ≠ some x) := by
  cases s with
  | undecided options =>
    simp only [Slot.without] at h
    split at h
    · simp at h
    · rw [← Option.some.inj h, Slot.options, Slot.options]
  | decided y =>
    simp only [Slot.without] at h
    split at h
    · simp at h
    · next hy =>
      rw [← Option.some.inj h, Slot.options, List.filter_singleton]
      simp [hy]

theorem Slot.exists_without {x : IndividualId} {y : Option IndividualId} {s : Slot}
    (hy : y ∈ s.options) (hne : y ≠ some x) : ∃ t, s.without x = some t := by
  cases s with
  | undecided options =>
    have hrest : y ∈ options.filter (· ≠ some x) := List.mem_filter.mpr ⟨hy, by simpa using hne⟩
    refine ⟨.undecided (options.filter (· ≠ some x)), ?_⟩
    rw [Slot.without, if_neg]
    rw [List.isEmpty_iff]
    exact List.ne_nil_of_mem hrest
  | decided z =>
    rw [Slot.options, List.mem_singleton] at hy
    exact ⟨.decided z, by rw [Slot.without, if_neg (by rw [← hy]; exact hne)]⟩

namespace SearchProblem

/-! ### Dropped options -/

/-- Options of a variable were dropped, unless it is decided. -/
structure ShrinksTo (d e : Decision) : Prop where
  about : e.about = d.about
  isUndecided : e.slot.isUndecided = d.slot.isUndecided
  options : e.slot.options.Sublist d.slot.options

theorem ShrinksTo.refl (d : Decision) : ShrinksTo d d := ⟨rfl, rfl, List.Sublist.refl _⟩

theorem ShrinksTo.trans {d e f : Decision} (h : ShrinksTo d e) (h' : ShrinksTo e f) :
    ShrinksTo d f :=
  ⟨h'.about.trans h.about, h'.isUndecided.trans h.isUndecided, h'.options.trans h.options⟩

theorem ShrinksTo.eq_of_decided {d e : Decision} (h : ShrinksTo d e)
    (hd : d.slot.isUndecided = false) : e = d := by
  obtain ⟨x, hx⟩ := Slot.eq_decided_of_not_isUndecided hd
  obtain ⟨y, hy⟩ := Slot.eq_decided_of_not_isUndecided (h.isUndecided.trans hd)
  have hxy : y = x := by
    have hsub := h.options
    rw [hx, hy, Slot.options, Slot.options] at hsub
    simpa using hsub.subset (List.mem_singleton_self y)
  have habout := h.about
  cases d
  cases e
  simp_all

/-- Options were dropped, and nothing else happened. -/
def Shrinks (ds es : List Decision) : Prop := List.Forall₂ ShrinksTo ds es

theorem Shrinks.refl (ds : List Decision) : Shrinks ds ds :=
  List.forall₂_same.mpr fun d _ => .refl d

theorem Shrinks.trans {ds es fs : List Decision} (h : Shrinks ds es) (h' : Shrinks es fs) :
    Shrinks ds fs :=
  forall₂_comp (R := ShrinksTo) (S := ShrinksTo) (fun _ _ _ hd he => hd.trans he) h h'

theorem Shrinks.map_about {ds es : List Decision} (h : Shrinks ds es) :
    es.map Decision.about = ds.map Decision.about := by
  induction h with
  | nil => rfl
  | cons hd _ ih => rw [List.map_cons, List.map_cons, hd.about, ih]

theorem shrinks_place {ds : List Decision} {k : Nat} {v : Variable} {s t : Slot}
    (hk : ds[k]? = some ⟨v, s⟩) (hu : t.isUndecided = s.isUndecided)
    (ho : t.options.Sublist s.options) : Shrinks ds (place ds k v t) := by
  refine forall₂_iff_getElem?.mpr ⟨by simp [place], fun j d e hd he => ?_⟩
  rw [place, List.getElem?_set] at he
  split at he
  · next hjk =>
    subst hjk
    rw [hk, Option.some.injEq] at hd
    split at he
    · rw [← hd, ← Option.some.inj he]
      exact ⟨rfl, hu, ho⟩
    · simp at he
  · rw [hd, Option.some.injEq] at he
    rw [he]
    exact .refl e

/-! ### Reserving a choice -/

/-- What reserving a choice of the variable at place `k` makes of the decision at place `j`. -/
def reservedAt (k : Nat) (v : Variable) (x : Option IndividualId) (j : Nat) (d : Decision) :
    Option Decision :=
  match x with
  | none => some d
  | some i =>
    if v.isDistinct = true ∧ j ≠ k ∧ d.about.relation = v.relation then
      (d.slot.without i).map fun slot => { d with slot }
    else some d

theorem mapM_some_zipIdx (ds : List Decision) (n : Nat) :
    (ds.zipIdx n).mapM (fun a => some a.1) = some ds := by
  induction ds generalizing n with
  | nil => rfl
  | cons d ds ih => simp [List.zipIdx_cons, List.mapM_cons, ih]

theorem reserve_eq_mapM (ds : List Decision) (k : Nat) (v : Variable) (x : Option IndividualId) :
    reserve ds k v x = ds.zipIdx.mapM fun a => reservedAt k v x a.2 a.1 := by
  cases x with
  | none => rw [reserve]; exact (mapM_some_zipIdx ds 0).symm
  | some i =>
    by_cases hv : v.isDistinct = true
    · rw [reserve, if_pos hv]
      congr
      funext a
      obtain ⟨d, j⟩ := a
      simp only [reservedAt, hv, true_and]
    · rw [reserve, if_neg hv, ← mapM_some_zipIdx ds 0]
      congr
      funext a
      obtain ⟨d, j⟩ := a
      rw [reservedAt, if_neg fun h => hv h.1]

theorem reservedAt_shrinksTo {k j : Nat} {v : Variable} {x : Option IndividualId}
    {d e : Decision} (h : reservedAt k v x j d = some e) : ShrinksTo d e := by
  cases x with
  | none =>
    rw [← Option.some.inj h]
    exact .refl d
  | some i =>
    rw [reservedAt] at h
    split at h
    · obtain ⟨t, ht, rfl⟩ := Option.map_eq_some_iff.mp h
      refine ⟨rfl, Slot.isUndecided_of_without ht, ?_⟩
      rw [Slot.options_without ht]
      exact List.filter_sublist
    · rw [← Option.some.inj h]
      exact .refl d

theorem reserve_shrinks {ds next : List Decision} {k : Nat} {v : Variable}
    {x : Option IndividualId} (h : reserve ds k v x = some next) : Shrinks ds next := by
  rw [reserve_eq_mapM] at h
  exact (mapM_zipIdx_eq_some h).1.imp fun d e ⟨_, hde⟩ => reservedAt_shrinksTo hde

theorem getElem?_reserve {ds next : List Decision} {k : Nat} {v : Variable}
    {x : Option IndividualId} (h : reserve ds k v x = some next) {j : Nat} {d : Decision}
    (hd : ds[j]? = some d) : next[j]? = reservedAt k v x j d := by
  rw [reserve_eq_mapM] at h
  have := (mapM_zipIdx_eq_some h).2 j d hd
  rwa [Nat.zero_add] at this

/-! ### Propagation only drops options -/

theorem narrow_shrinks {p : SearchProblem} {ds next : List Decision} {k : Nat}
    (h : p.narrow ds k = some next) : Shrinks ds next := by
  simp only [narrow] at h
  split at h
  · next v options hk =>
    split at h
    · simp at h
    · next x hx =>
      refine (shrinks_place (t := .undecided [x]) hk rfl ?_).trans (reserve_shrinks h)
      rw [Slot.options, Slot.options, ← hx]
      exact List.filter_sublist
    · rw [← Option.some.inj h]
      exact shrinks_place hk rfl List.filter_sublist
  · rw [← Option.some.inj h]
    exact .refl ds

theorem foldlM_narrow_shrinks {p : SearchProblem} :
    ∀ {ks : List Nat} {ds next : List Decision}, ks.foldlM p.narrow ds = some next →
      Shrinks ds next := by
  intro ks
  induction ks with
  | nil =>
    intro ds next h
    rw [← Option.some.inj h]
    exact .refl ds
  | cons k ks ih =>
    intro ds next h
    simp only [List.foldlM_cons, Option.bind_eq_bind, Option.bind_eq_some_iff] at h
    obtain ⟨mid, hmid, hrest⟩ := h
    exact (narrow_shrinks hmid).trans (ih hrest)

/-- **Propagation only drops options.** -/
theorem propagate_shrinks {p : SearchProblem} {ds next : List Decision}
    (h : p.propagate ds = some next) : Shrinks ds next := by
  fun_induction propagate p ds with
  | case1 => simp at h
  | case2 ds mid hmid _ ih => exact (foldlM_narrow_shrinks hmid).trans (ih h)
  | case3 ds mid hmid _ =>
    rw [← Option.some.inj h]
    exact foldlM_narrow_shrinks hmid

/-! ### Propagation drops no solution -/

/-- Decisions about all variables of a problem leave a model open. -/
structure Leaves (p : SearchProblem) (ds : List Decision) (m : Model) : Prop where
  about : ds.map Decision.about = p.start.map Decision.about
  fits : Fits ds m

theorem decideAll_eq_zipWith (ds : List Decision) (m : Model) :
    decideAll ds m
      = List.zipWith (fun v x => { about := v, slot := .decided x }) (ds.map Decision.about) m := by
  rw [decideAll, List.zipWith_map_left]

theorem Leaves.decideAll_eq {p : SearchProblem} {ds : List Decision} {m : Model}
    (h : p.Leaves ds m) : decideAll ds m = decideAll p.start m := by
  rw [decideAll_eq_zipWith, decideAll_eq_zipWith, h.about]

theorem Leaves.about_at {p : SearchProblem} {ds : List Decision} {m : Model} (h : p.Leaves ds m)
    {k : Nat} {d : Decision} (hd : ds[k]? = some d) :
    p.start[k]?.map Decision.about = some d.about := by
  rw [← List.getElem?_map, ← h.about, List.getElem?_map, hd, Option.map_some]

/-- What leaves a solution open is admitted. -/
theorem Leaves.admits {p : SearchProblem} {ds : List Decision} {m : Model} (h : p.Leaves ds m)
    (hm : p.IsSolution m) (v : Variable) : p.admits ds v = true := by
  rw [SearchProblem.admits, List.all_eq_true]
  intro c hc
  rw [Bool.or_eq_true]
  refine Or.inr (decide_eq_true fun hfails => hm.admitted c hc ?_)
  rw [← h.decideAll_eq, p.evaluate_approximates h.fits c (by rw [hfails]; simp), hfails]

theorem Leaves.place {p : SearchProblem} {ds : List Decision} {m : Model} (h : p.Leaves ds m)
    {k : Nat} {v : Variable} {s t : Slot} {x : Option IndividualId} (hk : ds[k]? = some ⟨v, s⟩)
    (hx : m[k]? = some x) (hxt : x ∈ t.options) : p.Leaves (place ds k v t) m := by
  obtain ⟨hlt, hds⟩ := List.getElem?_eq_some_iff.mp hk
  constructor
  · rw [← h.about, SearchProblem.place, List.map_set]
    refine List.ext_getElem? fun j => ?_
    rw [List.getElem?_set]
    split
    · next hjk => rw [← hjk, List.length_map, if_pos hlt, List.getElem?_map, hk, Option.map_some]
    · rfl
  · refine forall₂_iff_getElem?.mpr ⟨?_, fun j d y hd hy => ?_⟩
    · rw [SearchProblem.place, List.length_set, h.fits.length_eq]
    · rw [SearchProblem.place, List.getElem?_set] at hd
      split at hd
      · next hjk =>
        rw [← hjk, hx, Option.some.injEq] at hy
        rw [← Option.some.inj hd, ← hy]
        exact hxt
      · exact h.fits.mem hd hy

/-- Reserving the choice of a solution leaves it the choices of the other variables. -/
theorem Leaves.reservedAt {p : SearchProblem} (hp : p.WellFormed) {ds : List Decision} {m : Model}
    (hm : p.IsSolution m) (h : p.Leaves ds m) {j k : Nat} {d e : Decision}
    {x y : Option IndividualId} (hk : ds[k]? = some d) (hx : m[k]? = some x)
    (he : ds[j]? = some e) (hy : m[j]? = some y) :
    ∃ f, reservedAt k d.about x j e = some f ∧ y ∈ f.slot.options := by
  have hye : y ∈ e.slot.options := h.fits.mem he hy
  cases x with
  | none => exact ⟨e, rfl, hye⟩
  | some i =>
    rw [SearchProblem.reservedAt]
    split
    · next hc =>
      obtain ⟨hdist, hjk, hrel⟩ := hc
      -- two variables of a solution that have to be distinct do not have the same choice
      have hne : y ≠ some i := by
        rintro rfl
        have hsame : d.about = e.about := hm.distinct _ _ i hdist hrel.symm
          ⟨k, h.about_at hk, hx⟩ ⟨j, h.about_at he, hy⟩
        have hdk := h.about_at hk
        rw [hsame] at hdk
        exact hjk (hp.place_inj (h.about_at he) hdk)
      obtain ⟨t, ht⟩ := Slot.exists_without hye hne
      refine ⟨{ e with slot := t }, by rw [ht, Option.map_some], ?_⟩
      rw [Slot.options_without ht]
      exact List.mem_filter.mpr ⟨hye, by simpa using hne⟩
    · exact ⟨e, rfl, hye⟩

/-- Reserving the choice of a solution drops no solution with that choice. -/
theorem reserve_leaves {p : SearchProblem} (hp : p.WellFormed) {ds : List Decision} {m : Model}
    (hm : p.IsSolution m) (h : p.Leaves ds m) {k : Nat} {d : Decision} {x : Option IndividualId}
    (hk : ds[k]? = some d) (hx : m[k]? = some x) :
    ∃ next, reserve ds k d.about x = some next ∧ p.Leaves next m := by
  obtain ⟨next, hnext⟩ : ∃ next, reserve ds k d.about x = some next := by
    rw [reserve_eq_mapM]
    refine exists_mapM_zipIdx fun j e he => ?_
    obtain ⟨y, hy⟩ := h.fits.exists_choice he
    obtain ⟨f, hf, -⟩ := h.reservedAt hp hm hk hx he hy
    exact ⟨f, by rw [Nat.zero_add]; exact hf⟩
  have hshrinks := reserve_shrinks hnext
  refine ⟨next, hnext, hshrinks.map_about.trans h.about, forall₂_iff_getElem?.mpr ⟨?_, ?_⟩⟩
  · rw [← List.Forall₂.length_eq hshrinks, h.fits.length_eq]
  · intro j f y hf hy
    obtain ⟨e, he⟩ : ∃ e, ds[j]? = some e := by
      have hlt := (List.getElem?_eq_some_iff.mp hf).1
      exact ⟨_, List.getElem?_eq_getElem (by rw [List.Forall₂.length_eq hshrinks]; exact hlt)⟩
    obtain ⟨f', hf', hyf⟩ := h.reservedAt hp hm hk hx he hy
    rw [getElem?_reserve hnext he, hf', Option.some.injEq] at hf
    rw [← hf]
    exact hyf

theorem narrow_leaves {p : SearchProblem} (hp : p.WellFormed) {ds : List Decision} {m : Model}
    (hm : p.IsSolution m) (h : p.Leaves ds m) (k : Nat) :
    ∃ next, p.narrow ds k = some next ∧ p.Leaves next m := by
  simp only [narrow]
  split
  · next v options hk =>
    obtain ⟨x, hx⟩ := h.fits.exists_choice hk
    have hxo : x ∈ options := h.fits.mem hk hx
    have hkept : x ∈ options.filter fun x => p.admits (SearchProblem.place ds k v (.decided x)) v :=
      List.mem_filter.mpr
        ⟨hxo, (h.place (t := .decided x) hk hx (List.mem_singleton_self x)).admits hm v⟩
    split
    · next hnil => rw [hnil] at hkept; simp at hkept
    · next y hy =>
      rw [hy, List.mem_singleton] at hkept
      subst hkept
      have hplace := h.place (t := .undecided [x]) hk hx (List.mem_singleton_self x)
      refine reserve_leaves (d := ⟨v, .undecided [x]⟩) hp hm hplace ?_ hx
      rw [SearchProblem.place, List.getElem?_set_self (List.getElem?_eq_some_iff.mp hk).1]
    · exact ⟨_, rfl, h.place hk hx hkept⟩
  · exact ⟨ds, rfl, h⟩

theorem foldlM_narrow_leaves {p : SearchProblem} (hp : p.WellFormed) {m : Model}
    (hm : p.IsSolution m) (ks : List Nat) {ds : List Decision} (h : p.Leaves ds m) :
    ∃ next, ks.foldlM p.narrow ds = some next ∧ p.Leaves next m := by
  induction ks generalizing ds with
  | nil => exact ⟨ds, rfl, h⟩
  | cons k ks ih =>
    obtain ⟨mid, hmid, hleaves⟩ := narrow_leaves hp hm h k
    obtain ⟨next, hnext, hleaves'⟩ := ih hleaves
    exact ⟨next, by simp [List.foldlM_cons, hmid, hnext], hleaves'⟩

/-- **Propagation drops no solution.** -/
theorem propagate_leaves {p : SearchProblem} (hp : p.WellFormed) {ds : List Decision} {m : Model}
    (hm : p.IsSolution m) (h : p.Leaves ds m) :
    ∃ next, p.propagate ds = some next ∧ p.Leaves next m := by
  have hsweep : ∀ {ds}, p.Leaves ds m → ∃ next, p.sweep ds = some next ∧ p.Leaves next m :=
    fun h => foldlM_narrow_leaves hp hm _ h
  -- the sweeps end because each one but the last drops an option
  fun_induction propagate p ds with
  | case1 ds hds =>
    obtain ⟨next, hnext, -⟩ := hsweep h
    rw [hnext] at hds
    simp at hds
  | case2 ds mid hmid _ ih =>
    obtain ⟨next, hnext, hleaves⟩ := hsweep h
    rw [hnext, Option.some.injEq] at hmid
    exact ih (hmid ▸ hleaves)
  | case3 ds mid hmid _ =>
    obtain ⟨next, hnext, hleaves⟩ := hsweep h
    rw [hnext, Option.some.injEq] at hmid
    exact ⟨mid, rfl, hmid ▸ hleaves⟩

end SearchProblem

end Ontology
