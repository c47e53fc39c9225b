import Ontology.Proofs.Pruning

/-!
# What partial decisions settle

Under partial decisions the value of a constraint may be open.  Once it is not, it never has to be
revised: whatever is decided later on, from the options that are left, the value stays.

## Main definitions

* `Slot.IsChosenFrom`, `SearchProblem.Completes` — a choice that a slot leaves, and decisions for
  all variables that partial ones leave.
* `SearchProblem.Descends` — the decisions that a search comes to from others.

## Main results

* `SearchProblem.settled_of_completes` — **what partial decisions settle about a restriction, an
  expression or a value, every decision of all variables that agrees with them settles alike.**
* `SearchProblem.Descends.settled` — the same for everything that the search comes to later on.
-/

namespace Ontology

/-! ### Choices -/

/-- The slot is decided for a choice that the other one leaves: the same choice if there is one
already, and otherwise one of the options. -/
def Slot.IsChosenFrom (chosen s : Slot) : Prop :=
  ∃ x, chosen = .decided x ∧
    match s with
    | .decided y => x = y
    | .undecided options => x ∈ options

theorem Slot.isChosenFrom_iff {chosen s : Slot} :
    chosen.IsChosenFrom s ↔ ∃ x ∈ s.options, chosen = .decided x := by
  cases s with
  | undecided options => simp [Slot.IsChosenFrom, Slot.options, and_comm]
  | decided y => simp [Slot.IsChosenFrom, Slot.options]

namespace SearchProblem

/-- All variables are decided: those of the first list that are decided there alike, the others
for one of the options that they have there. -/
def Completes (ds es : List Decision) : Prop :=
  List.Forall₂ (fun d e => e.about = d.about ∧ e.slot.IsChosenFrom d.slot) ds es

/-- Deciding all variables is choosing a model among the options. -/
theorem completes_iff {ds es : List Decision} :
    Completes ds es ↔ ∃ m, Fits ds m ∧ es = decideAll ds m := by
  constructor
  · intro h
    induction h with
    | nil => exact ⟨[], .nil, rfl⟩
    | @cons d e ds es hde _ ih =>
      obtain ⟨habout, hslot⟩ := hde
      obtain ⟨x, hx, hchosen⟩ := Slot.isChosenFrom_iff.mp hslot
      obtain ⟨m, hm, rfl⟩ := ih
      have he : e = ⟨d.about, .decided x⟩ := by rw [← habout, ← hchosen]
      exact ⟨x :: m, .cons hx hm, by rw [he]; rfl⟩
  · rintro ⟨m, hm, rfl⟩
    induction hm with
    | nil => exact .nil
    | cons hx _ ih => exact .cons ⟨rfl, Slot.isChosenFrom_iff.mpr ⟨_, hx, rfl⟩⟩ ih

theorem Completes.narrows {ds es : List Decision} (h : Completes ds es) : Narrows ds es := by
  obtain ⟨m, hm, rfl⟩ := completes_iff.mp h
  exact hm.narrows

/-! ### What stays -/

/-- What is settled about restrictions, expressions and values stays. -/
structure Settles (u v : View) : Prop where
  satisfies : ∀ r i, u.satisfies r i ≠ .unknown → v.satisfies r i = u.satisfies r i
  member : ∀ e i, u.member e i ≠ .unknown → v.member e i = u.member e i
  judge : ∀ e x, u.judge e x ≠ .unknown → v.judge e x = u.judge e x
  accepts : ∀ f x, u.accepts f x ≠ .unknown → v.accepts f x = u.accepts f x

theorem Narrows.settles (p : SearchProblem) {ds es : List Decision} (h : Narrows ds es) :
    Settles (p.view ds) (p.view es) where
  satisfies := fun _ _ => View.member_approximates _ _ (h.view_approximates p _ _)
  member := fun _ _ => View.member_approximates _ _ (h.view_approximates p _ _)
  judge := fun _ _ => View.accepts_approximates _ _ (h.view_approximates p _ _)
  accepts := fun _ _ => View.accepts_approximates _ _ (h.view_approximates p _ _)

/-- **What partial decisions settle never has to be revised.**  Every decision of all variables
that agrees with them gives the same truth value, for all restrictions and expressions. -/
theorem settled_of_completes (p : SearchProblem) {ds es : List Decision} (h : Completes ds es) :
    Settles (p.view ds) (p.view es) :=
  h.narrows.settles p

/-! ### Along a search -/

theorem NarrowsTo.refl (d : Decision) : NarrowsTo d d := ⟨rfl, fun _ hx => hx, fun _ => rfl⟩

theorem NarrowsTo.trans {d e f : Decision} (h : NarrowsTo d e) (h' : NarrowsTo e f) :
    NarrowsTo d f where
  about := h'.about.trans h.about
  options := fun _ hx => h.options (h'.options hx)
  decided := fun hd => by
    have hslot := h.decided hd
    rw [h'.decided (by rw [hslot]; exact hd), hslot]

theorem Narrows.refl (ds : List Decision) : Narrows ds ds :=
  List.forall₂_same.mpr fun d _ => .refl d

theorem Narrows.trans {ds es fs : List Decision} (h : Narrows ds es) (h' : Narrows es fs) :
    Narrows ds fs :=
  forall₂_comp (R := NarrowsTo) (S := NarrowsTo) (fun _ _ _ hd he => hd.trans he) h h'

theorem ShrinksTo.narrowsTo {d e : Decision} (h : ShrinksTo d e) : NarrowsTo d e where
  about := h.about
  options := h.options.subset
  decided := fun hd => by rw [h.eq_of_decided hd]

/-- Dropping options decides nothing that was open before. -/
theorem Shrinks.narrows {ds es : List Decision} (h : Shrinks ds es) : Narrows ds es :=
  h.imp fun _ _ => ShrinksTo.narrowsTo

/-- A variable that takes one of its options. -/
theorem place_narrows {ds : List Decision} {b : Branching} {x : Option IndividualId}
    (hb : branching? 0 ds = some b) (hx : x ∈ b.options) :
    Narrows ds (place ds b.place b.about (.decided x)) := by
  have hplace : ds[b.place]? = some ⟨b.about, .undecided b.options⟩ := by
    simpa using (getElem?_of_branching? hb).2
  refine forall₂_iff_getElem?.mpr ⟨by simp [place], fun j d e hd he => ?_⟩
  rw [place, List.getElem?_set] at he
  split at he
  · next hj =>
    subst hj
    rw [hplace, Option.some.injEq] at hd
    split at he
    · rw [← hd, ← Option.some.inj he]
      refine ⟨rfl, ?_, fun h => by simp [Slot.isUndecided] at h⟩
      simpa [Slot.options] using hx
    · simp at he
  · rw [hd, Option.some.injEq] at he
    rw [he]
    exact .refl e

/-- One decision of the search with what is dropped after it. -/
theorem decide_narrows {p : SearchProblem} {ds next : List Decision} {b : Branching}
    {x : Option IndividualId} (hb : branching? 0 ds = some b) (hx : x ∈ b.options)
    (h : p.decide ds b x = some next) : Narrows ds next := by
  simp only [decide, Option.bind_eq_bind, Option.bind_eq_some_iff] at h
  obtain ⟨mid, hmid, hnext⟩ := h
  split at hnext
  · exact ((place_narrows hb hx).trans (reserve_shrinks hmid).narrows).trans
      (propagate_shrinks hnext).narrows
  · simp at hnext

/-- The decisions that a search comes to, one variable after the other. -/
inductive Descends (p : SearchProblem) : List Decision → List Decision → Prop where
  | refl (ds : List Decision) : Descends p ds ds
  | decide {ds next es : List Decision} {b : Branching} {x : Option IndividualId} :
    branching? 0 ds = some b → x ∈ b.options → p.decide ds b x = some next →
      Descends p next es → Descends p ds es

theorem Descends.narrows {p : SearchProblem} {ds es : List Decision} (h : p.Descends ds es) :
    Narrows ds es := by
  induction h with
  | refl ds => exact .refl ds
  | decide hb hx hdecide _ ih => exact (decide_narrows hb hx hdecide).trans ih

/-- **What is settled at some point of a search is settled alike from there on.** -/
theorem Descends.settled {p : SearchProblem} {ds es : List Decision} (h : p.Descends ds es) :
    Settles (p.view ds) (p.view es) :=
  h.narrows.settles p

end SearchProblem

namespace World

/-! ### Dogs and owners -/

/-- A dog has one owner; it may like anything.  Bello belongs to Ann, the owner of Rex is open. -/
def dogs : World where
  iri := ""
  classes := #[{ name := "Dog" }, { name := "Person" }]
  properties := #[
    { name := "owner", kind := .object, domain := [.named ⟨0⟩]
      range := .classes [.named ⟨1⟩], characteristics := { functional := true } },
    { name := "likes", kind := .object }]
  individuals := #[
    { name := "bello", isA := [.named ⟨0⟩], facts := .push {} ⟨0⟩ (.individual ⟨2⟩) },
    { name := "rex"
      isA := [.named ⟨0⟩, .restriction (.named ⟨0⟩) .some (.expression (.named ⟨1⟩))] },
    { name := "ann", isA := [.named ⟨1⟩] },
    { name := "bob", isA := [.named ⟨1⟩] }]

/-- The problem to find the owner of Rex. -/
def dogsProblem : SearchProblem := dogs.searchProblem dogs.interpretation

/-- Owners of dogs without an owner of their own, named or fond of dogs. -/
def dogOwners : ClassExpression :=
  .and [.restriction (.inverse ⟨0⟩) .some (.expression (.named ⟨0⟩)),
    .not (.restriction (.named ⟨0⟩) .some (.expression .thing)),
    .or [.oneOf [⟨2⟩, ⟨3⟩], .restriction (.named ⟨1⟩) .some (.expression (.named ⟨0⟩))]]

/-- Before anything is decided, Rex is known not to belong to a dog and Ann to be an owner.  Both
stay if Rex belongs to Bob. -/
theorem settled_of_completes_dogs :
    let later := dogsProblem.view [⟨⟨.named ⟨0⟩, ⟨1⟩, false⟩, .decided (some ⟨3⟩)⟩]
    dogsProblem.start
        = [⟨⟨.named ⟨0⟩, ⟨1⟩, false⟩, .undecided [some ⟨2⟩, some ⟨3⟩, none]⟩] ∧
      later.satisfies ⟨.named ⟨0⟩, .some, .expression (.named ⟨0⟩)⟩ ⟨1⟩ = .fails ∧
      later.member dogOwners ⟨2⟩ = .holds := by
  have hstart : dogsProblem.start
      = [⟨⟨.named ⟨0⟩, ⟨1⟩, false⟩, .undecided [some ⟨2⟩, some ⟨3⟩, none]⟩] := by decide +kernel
  have h : SearchProblem.Completes dogsProblem.start
      [⟨⟨.named ⟨0⟩, ⟨1⟩, false⟩, .decided (some ⟨3⟩)⟩] := by
    rw [hstart]
    exact .cons ⟨rfl, some ⟨3⟩, rfl, by simp⟩ .nil
  have hsettled := dogsProblem.settled_of_completes h
  refine ⟨hstart, ?_, ?_⟩
  · rw [hsettled.satisfies _ _ (by decide +kernel)]
    decide +kernel
  · rw [hsettled.member _ _ (by decide +kernel)]
    decide +kernel

end World

end Ontology
