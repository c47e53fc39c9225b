import Ontology.Proofs.Support

/-!
# Growth that contradicts nothing

Facts keep arriving while definitions are asked.  An answer about a class expression is based on
the values that are known of relations and on relations whose values are all known, either because
the individual is marked or because the relation is functional and has a value.  If new facts leave
such relations alone, no answer that was given has to be taken back, however deeply restrictions
and complements are nested.

## Main definitions

* `World.GrowsConsistently` — more facts, but no new values where all values were known.
* `World.isOpenTo`, `World.areOpenInTurn` — a fact, or facts one after the other, that can be added
  in this way.

## Main results

* `World.GrowsConsistently.judge_eq` — **what was answered is answered alike afterwards.**
* `World.growsConsistently_addFact`, `World.growsConsistently_addFacts` — facts that arrive where
  something is open are such growth, one by one and many in turn.
-/

namespace Ontology.World

variable {w : World} {I J K : Interpretation}

/-! ### Consistent growth -/

/-- The second interpretation knows the same types and all facts of the first one.  A relation, be
it a property or the inverse of one, has no new values for an individual that was marked as having
no others, and none if it is functional and had a value. -/
structure GrowsConsistently (w : World) (I J : Interpretation) : Prop where
  types : ∀ t, t ∈ J.types ↔ t ∈ I.types
  facts : I.facts ⊆ J.facts
  complete : ∀ p i, w.isComplete I (w.relation p) i = true →
    J.related (w.relation p) i ⊆ I.related (w.relation p) i
  functional : ∀ p i, w.isFunctional (w.relation p) = true → I.related (w.relation p) i ≠ [] →
    J.related (w.relation p) i ⊆ I.related (w.relation p) i

namespace GrowsConsistently

theorem le (h : w.GrowsConsistently I J) : I ≤ J :=
  ⟨h.facts, fun t ht => (h.types t).mpr ht⟩

theorem hasType_eq (h : w.GrowsConsistently I J) (i : IndividualId) (c : ClassId) :
    J.hasType i c = I.hasType i c := by
  rw [Bool.eq_iff_iff, Interpretation.hasType_iff, Interpretation.hasType_iff]
  exact h.types (i, c)

theorem refl (w : World) (I : Interpretation) : w.GrowsConsistently I I where
  types _ := Iff.rfl
  facts _ hf := hf
  complete _ _ _ _ hx := hx
  functional _ _ _ _ _ hx := hx

theorem trans (h : w.GrowsConsistently I J) (h' : w.GrowsConsistently J K) :
    w.GrowsConsistently I K where
  types t := (h'.types t).trans (h.types t)
  facts _ hf := h'.facts (h.facts hf)
  complete p i hcomplete _ hx :=
    h.complete p i hcomplete (h'.complete p i (isComplete_mono h.le hcomplete) hx)
  functional p i hfunctional hrelated x hx := by
    -- the value that was there first is still there when the second growth begins
    obtain ⟨y, hy⟩ := List.exists_mem_of_ne_nil _ hrelated
    have hstill : J.related (w.relation p) i ≠ [] :=
      List.ne_nil_of_mem (Interpretation.mem_related_mono h.le hy)
    exact h.functional p i hfunctional hrelated (h'.functional p i hfunctional hstill hx)

/-- Where all values of a relation were known there are no others. -/
theorem related_subset (h : w.GrowsConsistently I J) {p : PropertyExpression} {i : IndividualId}
    (hclosed : (w.assertedSuccessors I (w.relation p) i).isOpen = false) :
    J.related (w.relation p) i ⊆ I.related (w.relation p) i := by
  rcases isOpen_assertedSuccessors.mp hclosed with hcomplete | ⟨hfunctional, hrelated⟩
  · exact h.complete p i hcomplete
  · exact h.functional p i hfunctional hrelated

/-! ### Answers -/

/-- More is known of the values of every relation, and what was settled stays settled. -/
theorem assertedSuccessors_approximates (h : w.GrowsConsistently I J) (p : PropertyExpression)
    (i : IndividualId) :
    (w.assertedSuccessors I (w.relation p) i).Approximates
      (w.assertedSuccessors J (w.relation p) i) where
  known _ hx := Interpretation.mem_related_mono h.le hx
  isOpen hclosed := by
    rw [isOpen_assertedSuccessors] at hclosed ⊢
    refine hclosed.imp (isComplete_mono h.le) (And.imp_right fun hrelated => ?_)
    obtain ⟨x, hx⟩ := List.exists_mem_of_ne_nil _ hrelated
    exact List.ne_nil_of_mem (Interpretation.mem_related_mono h.le hx)
  known_new hclosed _ hx := Or.inl (h.related_subset hclosed hx)
  possible _ _ hx := hx

theorem approximatesOn (h : w.GrowsConsistently I J) (cs : List ClassId)
    (ps : List PropertyExpression) :
    View.ApproximatesOn cs ps (w.assertedView I) (w.assertedView J) where
  hasType c _ i := (h.hasType_eq i c).symm
  successors p _ i := h.assertedSuccessors_approximates p i

/-- **What was answered is answered alike afterwards.**  Whether a value belongs to an expression
is not called into question by growth that contradicts nothing. -/
theorem judge_eq (h : w.GrowsConsistently I J) (e : ClassExpression) (x : Value)
    (hsettled : (w.assertedView I).judge e x ≠ .unknown) :
    (w.assertedView J).judge e x = (w.assertedView I).judge e x :=
  View.accepts_approximates (.expression e) x (h.approximatesOn _ _) hsettled

end GrowsConsistently

/-! ### Facts that arrive -/

/-- There may be values of the property that a fact is about for its subject, and subjects for its
value, other than those known.  A marker gives no value. -/
def isOpenTo (w : World) (I : Interpretation) (f : Fact) : Bool :=
  f.value.isNothing ||
    (w.assertedSuccessors I (.named f.property) f.subject).isOpen &&
      f.value.individual?.all fun o => (w.assertedSuccessors I (.inverse f.property) o).isOpen

/-- Each fact finds something open when it is added behind the ones before. -/
def areOpenInTurn (w : World) : Interpretation → List Fact → Bool
  | _, [] => true
  | I, f :: fs => w.isOpenTo I f && w.areOpenInTurn (I.addFact f).1 fs

/-- A fact that finds something open gives new values to such relations only as were open. -/
theorem related_addFact_subset {f : Fact} (hopen : w.isOpenTo I f = true)
    {r : PropertyExpression} {i : IndividualId}
    (hclosed : (w.assertedSuccessors I r i).isOpen = false) :
    (I.addFact f).1.related r i ⊆ I.related r i := by
  intro x hx
  rw [isOpenTo, Bool.or_eq_true, Bool.and_eq_true] at hopen
  cases r with
  | named p =>
    rw [Interpretation.mem_related_named, Interpretation.mem_addFact] at hx
    obtain ⟨hold | rfl, hx⟩ := hx
    · exact Interpretation.mem_related_named.mpr ⟨hold, hx⟩
    · -- a new value would stand where nothing was open
      rcases hopen with hmarker | ⟨hforward, -⟩
      · simp [hmarker] at hx
      · simp [hforward] at hclosed
  | inverse p =>
    rw [Interpretation.mem_related_inverse] at hx
    obtain ⟨s, hs, rfl⟩ := hx
    rw [Interpretation.mem_addFact] at hs
    rcases hs with hold | rfl
    · exact Interpretation.mem_related_inverse.mpr ⟨s, hold, rfl⟩
    · rcases hopen with hmarker | ⟨-, hbackward⟩
      · simp [Value.isNothing] at hmarker
      · simp [Value.individual?, hclosed] at hbackward

/-- **A fact that finds something open contradicts nothing.** -/
theorem growsConsistently_addFact {f : Fact} (hopen : w.isOpenTo I f = true) :
    w.GrowsConsistently I (I.addFact f).1 where
  types t := by rw [Interpretation.types_addFact]
  facts := (Interpretation.extends_addFact I f).le.1
  complete _ _ hcomplete :=
    related_addFact_subset hopen (isOpen_assertedSuccessors.mpr (Or.inl hcomplete))
  functional _ _ hfunctional hrelated :=
    related_addFact_subset hopen
      (isOpen_assertedSuccessors.mpr (Or.inr ⟨hfunctional, hrelated⟩))

/-- **Facts that find something open in turn contradict nothing.** -/
theorem growsConsistently_addFacts {fs : List Fact} (hopen : w.areOpenInTurn I fs = true) :
    w.GrowsConsistently I (I.addFacts fs) := by
  induction fs generalizing I with
  | nil => exact .refl w I
  | cons f fs ih =>
    rw [areOpenInTurn, Bool.and_eq_true] at hopen
    exact (growsConsistently_addFact hopen.1).trans (ih hopen.2)

/-! ### Lodgers -/

/-- Nobody rents more than one room.  Ann and Ben are lodgers, and there is a room. -/
def lodgings : World where
  iri := ""
  classes := #[{ name := "Lodger" }]
  properties := #[
    { name := "rents", kind := .object, characteristics := { functional := true } },
    { name := "is_rented_by", kind := .object, inverseOf := some ⟨0⟩ },
    { name := "owns", kind := .object }]
  individuals := #[
    { name := "ann", isA := [.named ⟨0⟩] },
    { name := "ben", isA := [.named ⟨0⟩] },
    { name := "room", isA := [.thing] }]

/-- Ann rents the room, which owns nothing. -/
def annLodges : Interpretation where
  facts := [⟨⟨0⟩, ⟨0⟩, .individual ⟨2⟩⟩, ⟨⟨2⟩, ⟨2⟩, .expression .nothing⟩]
  types := [(⟨0⟩, ⟨0⟩), (⟨1⟩, ⟨0⟩)]

/-- Ben moves in and owns the room; he owns nothing else. -/
def benArrives : List Fact :=
  [⟨⟨1⟩, ⟨0⟩, .individual ⟨2⟩⟩, ⟨⟨1⟩, ⟨2⟩, .individual ⟨2⟩⟩]

/-- Those who rent something that a lodger rents and that does not own anything. -/
def sharesRoom : ClassExpression :=
  .restriction (.named ⟨0⟩) .some (.expression (.and [
    .restriction (.named ⟨1⟩) .some (.expression (.named ⟨0⟩)),
    .not (.restriction (.named ⟨2⟩) .some (.expression .thing))]))

/-- Ben's arrival changes nothing for Ann: she rents a room, and not one that owns something. -/
theorem judge_lodgings :
    lodgings.areOpenInTurn annLodges benArrives = true ∧
      (lodgings.assertedView annLodges).judge sharesRoom (.individual ⟨0⟩) = .holds ∧
      (lodgings.assertedView (annLodges.addFacts benArrives)).judge sharesRoom (.individual ⟨0⟩)
        = .holds ∧
      (lodgings.assertedView annLodges).judge (.not sharesRoom) (.individual ⟨0⟩) = .fails ∧
      (lodgings.assertedView (annLodges.addFacts benArrives)).judge (.not sharesRoom)
        (.individual ⟨0⟩) = .fails := by
  have hopen : lodgings.areOpenInTurn annLodges benArrives = true := by decide
  have hgrows := growsConsistently_addFacts hopen
  have hshares :
      (lodgings.assertedView annLodges).judge sharesRoom (.individual ⟨0⟩) = .holds := by
    decide
  have hnot :
      (lodgings.assertedView annLodges).judge (.not sharesRoom) (.individual ⟨0⟩) = .fails := by
    decide
  refine ⟨hopen, hshares, ?_, hnot, ?_⟩
  · rw [hgrows.judge_eq sharesRoom _ (by rw [hshares]; decide), hshares]
  · rw [hgrows.judge_eq (.not sharesRoom) _ (by rw [hnot]; decide), hnot]

end Ontology.World
