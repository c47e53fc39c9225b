import Ontology.Reasoning.Inconsistency
import Ontology.Reasoning.Problem

/-!
# Search for models

The models of a search problem are found by deciding one variable after the other, the one with the
fewest options first.  After each decision options that make a constraint fail are dropped.

## Main definitions

* `SearchProblem.propagate` — drops options until all that are left are admitted one by one.
* `SearchProblem.firstModels` — the first models, up to a limit.
* `SearchProblem.solve` — the number of models and the facts that they have in common.

## Main statements

* `SearchProblem.propagate_undecided` — propagation decides nothing by itself, so that every
  decision leaves fewer variables undecided.
-/

namespace Ontology.SearchProblem

/-! ### Propagation -/

/-- The number of options left. -/
def size : List Decision → Nat
  | [] => 0
  | d :: ds => d.slot.options.length + size ds

/-- Puts a slot at a place. -/
def place (ds : List Decision) (k : Nat) (v : Variable) (slot : Slot) : List Decision :=
  ds.set k { about := v, slot }

/-- Takes the choice of a variable at place `k` away from the other variables of its relation, if
they have to be distinct; `none` if one of them has no other option. -/
def reserve (ds : List Decision) (k : Nat) (v : Variable) :
    Option IndividualId → Option (List Decision)
  | none => some ds
  | some x =>
    if v.isDistinct then
      ds.zipIdx.mapM fun (d, j) =>
        if j ≠ k ∧ d.about.relation = v.relation then
          (d.slot.without x).map fun slot => { d with slot }
        else some d
    else some ds

/-- Drops the options of the variable at place `k` that are not admitted; `none` if no option is
left for some variable. -/
def narrow (p : SearchProblem) (ds : List Decision) (k : Nat) : Option (List Decision) :=
  match ds[k]? with
  | some ⟨v, .undecided options⟩ =>
    match options.filter fun x => p.admits (place ds k v (.decided x)) v with
    | [] => none
    | [x] => reserve (place ds k v (.undecided [x])) k v x
    | kept => some (place ds k v (.undecided kept))
  | _ => some ds

/-- Narrows all variables, one after the other. -/
def sweep (p : SearchProblem) (ds : List Decision) : Option (List Decision) :=
  (List.range ds.length).foldlM p.narrow ds

/-- Sweeps until no option is dropped any more. -/
def propagate (p : SearchProblem) (ds : List Decision) : Option (List Decision) :=
  match p.sweep ds with
  | none => none
  | some next => if size next < size ds then p.propagate next else some next
termination_by size ds

/-! ### Undecided variables -/

/-- Which variables are undecided. -/
def undecided (ds : List Decision) : List Bool :=
  ds.map (·.slot.isUndecided)

theorem Slot.isUndecided_of_without {x : IndividualId} {s t : Slot} (h : s.without x = some t) :
    t.isUndecided = s.isUndecided := by
  cases s <;> simp only [Slot.without] at h <;> split at h <;> simp_all [Slot.isUndecided]
  all_goals subst h; rfl

theorem undecided_mapM {f : Decision × Nat → Option Decision}
    (hf : ∀ a b, f a = some b → b.slot.isUndecided = a.1.slot.isUndecided) :
    ∀ (ds : List Decision) (n : Nat) (next : List Decision),
      (ds.zipIdx n).mapM f = some next → undecided next = undecided ds
  | [], n, next, h => by simp_all [undecided]
  | d :: ds, n, next, h => by
    simp only [List.zipIdx_cons, List.mapM_cons, Option.bind_eq_bind, Option.bind_eq_some_iff,
      Option.pure_def, Option.some.injEq] at h
    obtain ⟨e, he, rest, hrest, rfl⟩ := h
    have ih := undecided_mapM hf ds (n + 1) rest hrest
    have hd := hf _ _ he
    simp_all [undecided]

/-- Reserving a choice decides nothing. -/
theorem reserve_undecided {ds next : List Decision} {k : Nat} {v : Variable}
    {x : Option IndividualId} (h : reserve ds k v x = some next) :
    undecided next = undecided ds := by
  cases x with
  | none => simp_all [reserve]
  | some x =>
    simp only [reserve] at h
    split at h
    · refine undecided_mapM (fun a b hab => ?_) ds 0 next h
      split at hab
      · obtain ⟨slot, hslot, rfl⟩ := Option.map_eq_some_iff.1 hab
        exact Slot.isUndecided_of_without hslot
      · simp_all
    · simp_all

/-- Putting a slot of the same kind at a place decides nothing. -/
theorem place_undecided {ds : List Decision} {k : Nat} {v v' : Variable} {slot slot' : Slot}
    (h : ds[k]? = some ⟨v', slot'⟩) (hs : slot.isUndecided = slot'.isUndecided) :
    undecided (place ds k v slot) = undecided ds := by
  obtain ⟨hk, hd⟩ := List.getElem?_eq_some_iff.1 h
  apply List.ext_getElem (by simp [undecided, place])
  intro n h₁ h₂
  by_cases hn : k = n
  · subst hn
    simp [undecided, place, hd, hs]
  · simp [undecided, place, List.getElem_set_ne hn]

/-- Narrowing decides nothing. -/
theorem narrow_undecided {p : SearchProblem} {ds next : List Decision} {k : Nat}
    (h : p.narrow ds k = some next) : undecided next = undecided ds := by
  simp only [narrow] at h
  split at h
  · next v options hk =>
    split at h
    · simp at h
    · exact (reserve_undecided h).trans (place_undecided hk rfl)
    · simp only [Option.some.injEq] at h
      exact h ▸ place_undecided hk rfl
  · simp_all

theorem foldlM_narrow_undecided {p : SearchProblem} :
    ∀ (ks : List Nat) (ds next : List Decision),
      ks.foldlM p.narrow ds = some next → undecided next = undecided ds
  | [], ds, next, h => by simp_all
  | k :: ks, ds, next, h => by
    simp only [List.foldlM_cons, Option.bind_eq_bind, Option.bind_eq_some_iff] at h
    obtain ⟨mid, hmid, hrest⟩ := h
    exact (foldlM_narrow_undecided ks mid next hrest).trans (narrow_undecided hmid)

/-- Propagation decides nothing. -/
theorem propagate_undecided {p : SearchProblem} {ds next : List Decision}
    (h : p.propagate ds = some next) : undecided next = undecided ds := by
  fun_induction propagate p ds with
  | case1 => simp at h
  | case2 ds mid hmid hlt ih => exact (ih h).trans (foldlM_narrow_undecided _ _ _ hmid)
  | case3 ds mid hmid hlt =>
    simp only [Option.some.injEq] at h
    exact h ▸ foldlM_narrow_undecided _ _ _ hmid

/-! ### Search -/

/-- An undecided variable with its place and its options. -/
structure Branching where
  place : Nat
  about : Variable
  options : List (Option IndividualId)
  deriving DecidableEq, Repr

/-- The first variable with the fewest options; `k` variables stand before the list. -/
def branching? (k : Nat) : List Decision → Option Branching
  | [] => none
  | ⟨_, .decided _⟩ :: ds => branching? (k + 1) ds
  | ⟨v, .undecided options⟩ :: ds =>
    match branching? (k + 1) ds with
    | some b => if b.options.length < options.length then some b else some ⟨k, v, options⟩
    | none => some ⟨k, v, options⟩

/-- Decides a variable and propagates; `none` if this leads nowhere. -/
def decide (p : SearchProblem) (ds : List Decision) (b : Branching) (x : Option IndividualId) :
    Option (List Decision) := do
  let next ← reserve (place ds b.place b.about (.decided x)) b.place b.about x
  if p.admits next b.about then p.propagate next else none

theorem getElem?_of_branching? : ∀ {k : Nat} {ds : List Decision} {b : Branching},
    branching? k ds = some b →
      k ≤ b.place ∧ ds[b.place - k]? = some ⟨b.about, .undecided b.options⟩
  | k, [], b, h => by simp [branching?] at h
  | k, ⟨v, .decided _⟩ :: ds, b, h => by
    obtain ⟨hk, hb⟩ := getElem?_of_branching? (k := k + 1) (by simpa [branching?] using h)
    refine ⟨by omega, ?_⟩
    rw [show b.place - k = (b.place - (k + 1)) + 1 by omega, List.getElem?_cons_succ, hb]
  | k, ⟨v, .undecided options⟩ :: ds, b, h => by
    have later {c : Branching} (hc : branching? (k + 1) ds = some c) :
        k ≤ c.place ∧ (⟨v, .undecided options⟩ :: ds : List Decision)[c.place - k]?
          = some ⟨c.about, .undecided c.options⟩ := by
      obtain ⟨hk, hb⟩ := getElem?_of_branching? hc
      refine ⟨by omega, ?_⟩
      rw [show c.place - k = (c.place - (k + 1)) + 1 by omega, List.getElem?_cons_succ, hb]
    simp only [branching?] at h
    split at h
    · next c hc =>
      split at h
      · simp only [Option.some.injEq] at h
        exact h ▸ later hc
      · simp only [Option.some.injEq] at h
        subst h
        simp
    · simp only [Option.some.injEq] at h
      subst h
      simp

theorem count_set_false {bs : List Bool} {k : Nat} (h : ∃ hk : k < bs.length, bs[k] = true) :
    (bs.set k false).count true < bs.count true := by
  obtain ⟨hk, hb⟩ := h
  have hpos : 0 < bs.count true := List.count_pos_iff.2 (hb ▸ List.getElem_mem hk)
  rw [List.count_set hk]
  simp only [hb, beq_self_eq_true, if_true, Bool.false_eq_true, beq_iff_eq, if_false]
  omega

/-- Every decision leaves fewer variables undecided. -/
theorem count_undecided_decide {p : SearchProblem} {ds next : List Decision} {b : Branching}
    {x : Option IndividualId} (hb : branching? 0 ds = some b)
    (h : p.decide ds b x = some next) :
    (undecided next).count true < (undecided ds).count true := by
  simp only [decide, Option.bind_eq_bind, Option.bind_eq_some_iff] at h
  obtain ⟨mid, hmid, hnext⟩ := h
  split at hnext
  · rw [propagate_undecided hnext, reserve_undecided hmid]
    obtain ⟨-, hk⟩ := getElem?_of_branching? hb
    have hset : undecided (place ds b.place b.about (.decided x))
        = (undecided ds).set b.place false := by
      simp [undecided, place, List.map_set, Slot.isUndecided]
    rw [hset]
    refine count_set_false (List.getElem?_eq_some_iff.1 ?_)
    simp only [Nat.sub_zero] at hk
    simp [undecided, hk, Slot.isUndecided]
  · simp at hnext

/-- The choices for the variables, in their order. -/
abbrev Model := List (Option IndividualId)

/-- The first models that agree with the decisions, up to a limit. -/
def firstModels (p : SearchProblem) (limit : Nat) (ds : List Decision) : List Model :=
  match _hb : branching? 0 ds with
  | none => [ds.map fun d => d.slot.options.head?.join]
  | some b =>
    b.options.foldl (fun found x =>
      if limit ≤ found.length then found
      else
        match _h : p.decide ds b x with
        | none => found
        | some next => found ++ p.firstModels (limit - found.length) next) []
termination_by (undecided ds).count true
decreasing_by exact count_undecided_decide _hb _h

/-- The fact that a choice for a variable stands for. -/
def factOf (v : Variable) (x : IndividualId) : Fact :=
  match v.relation with
  | .named p => ⟨v.subject, p, .individual x⟩
  | .inverse p => ⟨x, p, .individual v.subject⟩

/-- The facts that hold in a model and in all others. -/
def commonFacts (p : SearchProblem) (m : Model) (others : List Model) : List Fact :=
  (p.start.zip m).zipIdx.filterMap fun ((d, choice), k) =>
    choice.bind fun x =>
      if others.all (·[k]? = some (some x)) then some (factOf d.about x) else none

/-- What a search found. -/
structure Outcome where
  /-- The number of models found. -/
  models : Nat
  /-- There may be further models. -/
  isCapped : Bool
  /-- The facts that hold in all models, if there are no further ones. -/
  entailed : List Fact
  deriving DecidableEq, Repr

/-- Searches for models until the limit is reached, which is at least one. -/
def solve (p : SearchProblem) (maxModels : Nat) : Except Inconsistency Outcome :=
  match p.constraints.find? fun c => p.evaluate p.start c = .fails with
  | some c => .error (.violated c.subject c.restriction.property.property)
  | none =>
    let limit := max maxModels 1
    match (p.propagate p.start).elim [] (p.firstModels limit) with
    | [] => .error .noModel
    | m :: others =>
      let isCapped := limit ≤ others.length + 1
      .ok {
        models := others.length + 1
        isCapped
        entailed := if isCapped then [] else p.commonFacts m others }

end Ontology.SearchProblem
