import Ontology.Proofs.Enumeration
import Ontology.Reasoning.Saturation

/-!
# Markers and models

An individual can be marked as having no values of a property.  The options of a variable take the
markers of its subject into account, but not those that its values have in the opposite direction.

## Main definitions

* `SearchProblem.withoutMarked` — a problem whose options observe the markers of values as well.

## Main results

* `SearchProblem.isSolution_withoutMarked_iff` — dropping marked options drops the models that
  choose one, and no other.
* `World.counts_markers` — **counted models observe the markers of subjects, and those of values
  exactly if dropping marked options leaves the models alone.**
-/

namespace Ontology

namespace SearchProblem

variable {p : SearchProblem} {m : Model}

/-! ### Marked options -/

/-- The problem with options that observe the markers of values: an individual that is marked as
having no subject is no option. -/
def withoutMarked (p : SearchProblem) : SearchProblem :=
  { p with
    start := p.start.map fun d =>
      { d with
        slot := .undecided (d.slot.options.filter fun x => x.all fun i =>
          !p.world.isComplete p.interpretation d.about.relation.reversed i) } }

theorem decideAll_withoutMarked (p : SearchProblem) (m : Model) :
    decideAll p.withoutMarked.start m = decideAll p.start m := by
  rw [decideAll, withoutMarked, List.zipWith_map_left]
  rfl

theorem assigns_withoutMarked {v : Variable} {x : IndividualId} :
    p.withoutMarked.Assigns m v x ↔ p.Assigns m v x := by
  simp only [Assigns, withoutMarked, List.getElem?_map, Option.map_map]
  rfl

theorem fits_withoutMarked_iff :
    Fits p.withoutMarked.start m ↔ Fits p.start m ∧ ∀ v x, p.Assigns m v x →
      p.world.isComplete p.interpretation v.relation.reversed x = false := by
  rw [withoutMarked, Fits, List.forall₂_map_left_iff, forall₂_iff_getElem?, Fits,
    forall₂_iff_getElem?]
  simp only [Slot.options, List.mem_filter]
  constructor
  · rintro ⟨hlen, h⟩
    refine ⟨⟨hlen, fun k d x hd hx => (h k d x hd hx).1⟩, ?_⟩
    rintro v x ⟨k, hv, hx⟩
    obtain ⟨d, hd, rfl⟩ := Option.map_eq_some_iff.mp hv
    simpa using (h k d (some x) hd hx).2
  · rintro ⟨⟨hlen, h⟩, hmarked⟩
    refine ⟨hlen, fun k d x hd hx => ⟨h k d x hd hx, ?_⟩⟩
    cases x with
    | none => rfl
    | some i =>
      have := hmarked d.about i ⟨k, by rw [hd, Option.map_some], hx⟩
      simp [this]

/-- Dropping marked options drops the models that choose one, and no other. -/
theorem isSolution_withoutMarked_iff :
    p.withoutMarked.IsSolution m ↔ p.IsSolution m ∧ ∀ v x, p.Assigns m v x →
      p.world.isComplete p.interpretation v.relation.reversed x = false := by
  have hadmitted : (∀ c ∈ p.withoutMarked.constraints, p.withoutMarked.evaluate
      (decideAll p.withoutMarked.start m) c ≠ .fails) ↔
        ∀ c ∈ p.constraints, p.evaluate (decideAll p.start m) c ≠ .fails := by
    rw [decideAll_withoutMarked]
    exact Iff.rfl
  constructor
  · intro h
    obtain ⟨hfits, hmarked⟩ := fits_withoutMarked_iff.mp h.fits
    refine ⟨⟨hfits, fun v v' x hd hr hv hv' => ?_, hadmitted.mp h.admitted⟩, hmarked⟩
    exact h.distinct v v' x hd hr (assigns_withoutMarked.mpr hv) (assigns_withoutMarked.mpr hv')
  · rintro ⟨h, hmarked⟩
    refine ⟨fits_withoutMarked_iff.mpr ⟨h.fits, hmarked⟩, fun v v' x hd hr hv hv' => ?_,
      hadmitted.mpr h.admitted⟩
    exact h.distinct v v' x hd hr (assigns_withoutMarked.mp hv) (assigns_withoutMarked.mp hv')

end SearchProblem

namespace World

/-- The subject of a variable is not marked. -/
theorem isComplete_subject {w : World} {I : Interpretation} {m : SearchProblem.Model}
    {v : Variable} {x : IndividualId} (h : (w.searchProblem I).Assigns m v x) :
    w.isComplete I v.relation v.subject = false := by
  obtain ⟨k, hk, -⟩ := h
  obtain ⟨d, hd, rfl⟩ := Option.map_eq_some_iff.mp hk
  obtain ⟨r, -, s, hs, rfl⟩ := mem_start.mp (List.mem_of_getElem? hd)
  rw [openSubjects, List.mem_filter, Bool.and_eq_true, Bool.not_eq_true'] at hs
  exact hs.2.1

/-- **Counted models observe markers half-way.**  A relation has no value for a subject that is
marked in its direction.  A value may be marked in the opposite direction; the models in which none
is are the solutions of the problem without marked options. -/
theorem counts_markers (w : World) (I : Interpretation) (m : SearchProblem.Model) :
    let p := w.searchProblem I
    ((∃ maxModels, p.Counts maxModels m) →
      ∀ v x, p.Assigns m v x → w.isComplete I v.relation v.subject = false) ∧
    (p.withoutMarked.IsSolution m ↔ (∃ maxModels, p.Counts maxModels m) ∧
      ∀ v x, p.Assigns m v x → w.isComplete I v.relation.reversed x = false) := by
  intro p
  refine ⟨fun _ v x h => isComplete_subject h, ?_⟩
  rw [← SearchProblem.isSolution_iff_counts (w.searchProblem_wellFormed I)]
  exact SearchProblem.isSolution_withoutMarked_iff

/-! ### A marked value -/

/-- A visitor is right to one of two houses, and nobody is right to the first one, as its inverse
property says. -/
def houses : World where
  iri := ""
  classes := #[{ name := "House", equivalentTo := [.oneOf [⟨0⟩, ⟨1⟩]] }]
  properties := #[
    { name := "right_to", kind := .object, domain := [.oneOf [⟨2⟩]]
      range := .classes [.named ⟨0⟩], characteristics := { functional := true } },
    { name := "left_to", kind := .object, inverseOf := some ⟨0⟩ }]
  individuals := #[
    { name := "h1", isA := [.thing], facts := .push {} ⟨1⟩ .nothing },
    { name := "h2", isA := [.thing] },
    { name := "h3"
      isA := [.thing, .restriction (.named ⟨0⟩) .some (.expression (.named ⟨0⟩))] }]

/-- What saturation arrives at. -/
def housesSaturated : Interpretation where
  facts := [⟨⟨0⟩, ⟨1⟩, .nothing⟩]
  types := [(⟨0⟩, ⟨0⟩), (⟨1⟩, ⟨0⟩)]

/-- The only open value is the house that the visitor is right to. -/
theorem assigns_houses {y : Option IndividualId} {v : Variable} {x : IndividualId}
    (h : (houses.searchProblem housesSaturated).Assigns [y] v x) :
    v = ⟨.named ⟨0⟩, ⟨2⟩, false⟩ ∧ y = some x := by
  obtain ⟨k, hv, hx⟩ := h
  have hstart : (houses.searchProblem housesSaturated).start.map Decision.about
      = [⟨.named ⟨0⟩, ⟨2⟩, false⟩] := by decide
  rw [← List.getElem?_map, hstart] at hv
  cases k with
  | zero => exact ⟨(Option.some.inj hv).symm, Option.some.inj hx⟩
  | succ k => simp at hx

/-- The house without a marker remains. -/
theorem counts_markers_houses :
    (houses.searchProblem housesSaturated).withoutMarked.IsSolution [some ⟨1⟩] := by
  refine (counts_markers houses housesSaturated [some ⟨1⟩]).2.mpr ⟨⟨64, ?_⟩, ?_⟩
  · exact ⟨⟨2, false, []⟩, by decide +kernel, by decide +kernel, by decide +kernel⟩
  · intro v x h
    obtain ⟨rfl, hx⟩ := assigns_houses h
    rw [← Option.some.inj hx]
    decide

/-- **A model is counted in which the visitor is right to the house that nobody is right to.**
Without marked options there is one model only, and it tells which house the visitor is right
to. -/
theorem counts_houses :
    houses.saturate 10 houses.interpretation = .ok ⟨housesSaturated, 2, true⟩ ∧
      (houses.searchProblem housesSaturated).Counts 64 [some ⟨0⟩] ∧
      (houses.searchProblem housesSaturated).Assigns [some ⟨0⟩] ⟨.named ⟨0⟩, ⟨2⟩, false⟩ ⟨0⟩ ∧
      houses.isComplete housesSaturated (.inverse ⟨0⟩) ⟨0⟩ = true ∧
      (houses.searchProblem housesSaturated).solve 64 = .ok ⟨2, false, []⟩ ∧
      (houses.searchProblem housesSaturated).withoutMarked.solve 64
        = .ok ⟨1, false, [⟨⟨2⟩, ⟨0⟩, .individual ⟨1⟩⟩]⟩ := by
  have hsolve : (houses.searchProblem housesSaturated).solve 64 = .ok ⟨2, false, []⟩ := by
    decide +kernel
  refine ⟨by decide, ⟨_, hsolve, by decide +kernel, by decide +kernel⟩, ⟨0, by decide, rfl⟩,
    by decide, hsolve, by decide +kernel⟩

end World

end Ontology
