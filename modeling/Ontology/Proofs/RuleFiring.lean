import Ontology.Proofs.Conjunction

/-!
# What a rule says and what it adds

A rule says that its head holds for all values of its variables for which its body holds.  Read in
this way it does not mention how the body is matched.  In an order that is ready both come to the
same: matching finds the values of the variables of the body, and no variable elsewhere has one.

## Main definitions

* `Valuation` — a value for each variable.
* `Atom.TrueUnder`, `Rule.IsSatisfiedUnder` — an atom, or the whole body, is true.
* `Atom.Demands` — what an atom of a head asks for.
* `Atom.Denies` — an atom of a head is false, with the fault that is reported.
* `Bindings.Agrees` — bindings give the variables of a list the values of a valuation.

## Main results

* `Atom.holds_iff_trueUnder`, `Rule.satisfies_iff` — matching bindings are valuations that make the
  body true.
* `Rule.fire_exact` — **a rule adds exactly what it demands, and fails exactly if it is denied.**
-/

namespace Ontology

/-! ### Truth -/

/-- A value for each variable. -/
abbrev Valuation := String → Value

/-- What an argument stands for. -/
def Argument.under (σ : Valuation) : Argument → Value
  | .variable name => σ name
  | .individual i => .individual i
  | .literal l => .literal l

namespace Atom

/-- An atom is true: an individual has a type, a fact is known and no marker, both sides are equal,
or they are not. -/
def TrueUnder (I : Interpretation) (σ : Valuation) : Atom → Prop
  | .type c x => ∃ i, x.under σ = .individual i ∧ (i, c) ∈ I.types
  | .fact p x y => ∃ i, x.under σ = .individual i ∧ ⟨i, p, y.under σ⟩ ∈ I.facts ∧
      (y.under σ).isNothing = false
  | .same x y => x.under σ = y.under σ
  | .different x y => x.under σ ≠ y.under σ

/-- An atom of a head asks for a type or a fact.  It asks for nothing if one of its variables is
not among those given, or if its subject is no individual. -/
def Demands (given : List String) (σ : Valuation) : Atom → Derived → Prop
  | .type c x, d => x.isBound given = true ∧ ∃ i, x.under σ = .individual i ∧ d = .type i c
  | .fact p x y, d => x.isBound given = true ∧ y.isBound given = true ∧
      ∃ i, x.under σ = .individual i ∧ d = .fact ⟨i, p, y.under σ⟩
  | .same _ _, _ | .different _ _, _ => False

/-- An atom of a head whose variables are among those given compares its sides and is false. -/
def Denies (given : List String) (σ : Valuation) (rule : String) : Atom → Inconsistency → Prop
  | .same x y, fault => x.isBound given = true ∧ y.isBound given = true ∧
      x.under σ ≠ y.under σ ∧ fault = .identified rule (x.under σ) (y.under σ)
  | .different x y, fault => x.isBound given = true ∧ y.isBound given = true ∧
      x.under σ = y.under σ ∧ fault = .separated rule (x.under σ)
  | .type _ _, _ | .fact _ _ _, _ => False

end Atom

/-- All atoms of the body are true. -/
def Rule.IsSatisfiedUnder (r : Rule) (I : Interpretation) (σ : Valuation) : Prop :=
  ∀ a ∈ r.body, a.TrueUnder I σ

/-- The variables of the body. -/
def Rule.bodyVariables (r : Rule) : List String :=
  r.body.flatMap Atom.variableNames

/-! ### Bindings and valuations -/

namespace Bindings

/-- Bindings give the variables of a list the values of a valuation, and no others any. -/
def Agrees (b : Bindings) (given : List String) (σ : Valuation) : Prop :=
  ∀ name, b.lookup name = if name ∈ given then some (σ name) else none

variable {b : Bindings} {given : List String} {σ : Valuation}

/-- A valuation as bindings of some variables. -/
theorem exists_agrees (given : List String) (σ : Valuation) : ∃ b, Agrees b given σ := by
  refine ⟨given.map fun name => (name, σ name), fun name => ?_⟩
  induction given with
  | nil => rfl
  | cons first given ih =>
    rw [List.map_cons, List.lookup_cons]
    by_cases hname : name = first
    · simp [hname]
    · rw [beq_eq_false_iff_ne.mpr hname, ih]
      simp [hname]

/-- Bindings as a valuation, which gives any value to all other variables. -/
theorem Binds.exists_agrees (h : b.Binds given) : ∃ σ, b.Agrees given σ := by
  refine ⟨fun name => (b.lookup name).getD default, fun name => ?_⟩
  dsimp only
  by_cases hname : name ∈ given
  · obtain ⟨v, hv⟩ := Option.isSome_iff_exists.mp ((h name).mpr hname)
    rw [if_pos hname, hv, Option.getD_some]
  · have hnone : ¬(b.lookup name).isSome = true := fun hsome => hname ((h name).mp hsome)
    rw [if_neg hname, Option.not_isSome_iff_eq_none.mp hnone]

theorem Agrees.binds (h : b.Agrees given σ) : b.Binds given := by
  intro name
  rw [h name]
  by_cases hname : name ∈ given <;> simp [hname]

end Bindings

/-- An argument has a value if its variable is given. -/
theorem Argument.value?_of_agrees {b : Bindings} {given : List String} {σ : Valuation}
    (h : b.Agrees given σ) (x : Argument) :
    x.value? b = if x.isBound given = true then some (x.under σ) else none := by
  cases x with
  | «variable» name =>
    rw [value?, h name]
    by_cases hname : name ∈ given <;> simp [isBound, variableNames, under, hname]
  | individual i => rfl
  | literal l => rfl

namespace Atom

variable {I : Interpretation} {a : Atom} {b : Bindings} {given : List String} {σ : Valuation}

/-- The arguments of an atom are given if its variables are. -/
theorem isBound_of_mem_arguments (hnames : a.variableNames ⊆ given) {x : Argument}
    (hx : x ∈ a.arguments) : x.isBound given = true := by
  rw [Argument.isBound, List.all_eq_true]
  intro name hname
  exact decide_eq_true (hnames (List.mem_flatMap.mpr ⟨x, hx, hname⟩))

/-- An atom holds under bindings if and only if it is true. -/
theorem holds_iff_trueUnder (h : b.Agrees given σ) (hnames : a.variableNames ⊆ given) :
    a.Holds I b ↔ a.TrueUnder I σ := by
  have hvalue {x : Argument} (hx : x ∈ a.arguments) : x.value? b = some (x.under σ) := by
    rw [Argument.value?_of_agrees h, if_pos (isBound_of_mem_arguments hnames hx)]
  cases a with
  | type c x =>
    have hx := hvalue (x := x) (by simp [arguments])
    simp only [Holds, TrueUnder, hx, Option.some.injEq]
  | fact p x y =>
    have hx := hvalue (x := x) (by simp [arguments])
    have hy := hvalue (x := y) (by simp [arguments])
    simp only [Holds, TrueUnder, hx, hy, Option.some.injEq]
    constructor
    · rintro ⟨i, v, hi, rfl, hv, hf⟩
      exact ⟨i, hi, hf, hv⟩
    · rintro ⟨i, hi, hf, hv⟩
      exact ⟨i, _, hi, rfl, hv, hf⟩
  | same x y =>
    have hx := hvalue (x := x) (by simp [arguments])
    have hy := hvalue (x := y) (by simp [arguments])
    simp only [Holds, TrueUnder, hx, hy, Option.some.injEq]
    constructor
    · rintro ⟨v, hxv, hyv⟩
      rw [hxv, hyv]
    · intro heq
      exact ⟨_, heq, rfl⟩
  | different x y =>
    have hx := hvalue (x := x) (by simp [arguments])
    have hy := hvalue (x := y) (by simp [arguments])
    simp only [Holds, TrueUnder, hx, hy, Option.some.injEq]
    constructor
    · rintro ⟨u, v, rfl, rfl, hne⟩
      exact hne
    · intro hne
      exact ⟨_, _, rfl, rfl, hne⟩

/-- What an atom of a head adds is what it demands. -/
theorem instantiate_eq_ok_iff (h : b.Agrees given σ) {rule : String} {d : Derived} :
    a.instantiate rule b = .ok (some d) ↔ a.Demands given σ d := by
  cases a with
  | type c x =>
    rw [instantiate, Argument.value?_of_agrees h]
    by_cases hx : x.isBound given = true
    · rw [if_pos hx]
      cases hvalue : x.under σ <;> simp [Demands, hx, hvalue, eq_comm]
    · simp [Demands, hx]
  | fact p x y =>
    rw [instantiate, Argument.value?_of_agrees h, Argument.value?_of_agrees h]
    by_cases hx : x.isBound given = true
    · by_cases hy : y.isBound given = true
      · rw [if_pos hx, if_pos hy]
        cases hvalue : x.under σ <;> simp [Demands, hx, hy, hvalue, eq_comm]
      · simp [Demands, hy]
    · simp [Demands, hx]
  | same x y =>
    rw [instantiate, Demands, iff_false]
    intro hd
    split at hd
    · split at hd <;> cases hd
    · cases hd
  | different x y =>
    rw [instantiate, Demands, iff_false]
    intro hd
    split at hd
    · split at hd <;> cases hd
    · cases hd

/-- An atom of a head fails if and only if it is denied. -/
theorem instantiate_eq_error_iff (h : b.Agrees given σ) {rule : String} {fault : Inconsistency} :
    a.instantiate rule b = .error fault ↔ a.Denies given σ rule fault := by
  cases a with
  | type c x =>
    rw [instantiate, Denies, iff_false]
    intro hd
    split at hd <;> cases hd
  | fact p x y =>
    rw [instantiate, Denies, iff_false]
    intro hd
    split at hd <;> cases hd
  | same x y =>
    rw [instantiate, Argument.value?_of_agrees h, Argument.value?_of_agrees h]
    by_cases hx : x.isBound given = true
    · by_cases hy : y.isBound given = true
      · by_cases heq : x.under σ = y.under σ <;> simp [Denies, hx, hy, heq, eq_comm]
      · simp [Denies, hx, hy]
    · simp [Denies, hx]
  | different x y =>
    rw [instantiate, Argument.value?_of_agrees h, Argument.value?_of_agrees h]
    by_cases hx : x.isBound given = true
    · by_cases hy : y.isBound given = true
      · by_cases heq : x.under σ = y.under σ <;> simp [Denies, hx, hy, heq, eq_comm]
      · simp [Denies, hx, hy]
    · simp [Denies, hx]

end Atom

/-! ### Rules -/

namespace Rule

variable {r : Rule} {I : Interpretation}

/-- Some values of the variables satisfy the body, and the head demands something for them. -/
def Yields (r : Rule) (I : Interpretation) (d : Derived) : Prop :=
  ∃ σ, r.IsSatisfiedUnder I σ ∧ ∃ a ∈ r.head, a.Demands r.bodyVariables σ d

/-- Some values of the variables satisfy the body, and the head is false for them. -/
def IsRefuted (r : Rule) (I : Interpretation) (fault : Inconsistency) : Prop :=
  ∃ σ, r.IsSatisfiedUnder I σ ∧ ∃ a ∈ r.head, a.Denies r.bodyVariables σ r.name fault

/-- Bindings satisfy a body if and only if its atoms are true for their values. -/
theorem satisfies_iff {b : Bindings} {σ : Valuation} (h : b.Agrees r.bodyVariables σ) :
    r.Satisfies I b ↔ r.IsSatisfiedUnder I σ := by
  have hnames {a : Atom} (ha : a ∈ r.body) : a.variableNames ⊆ r.bodyVariables :=
    fun name hname => List.mem_flatMap.mpr ⟨a, ha, hname⟩
  constructor
  · intro hb a ha
    exact (Atom.holds_iff_trueUnder h (hnames ha)).mp (hb.holds a ha)
  · intro hσ
    exact ⟨h.binds, fun a ha => (Atom.holds_iff_trueUnder h (hnames ha)).mpr (hσ a ha)⟩

/-- Something is the case for bindings that satisfy a body if and only if something that it amounts
to is the case for values that do. -/
theorem exists_satisfies_iff {P : Bindings → Prop} {Q : Valuation → Prop}
    (hPQ : ∀ b σ, b.Agrees r.bodyVariables σ → (P b ↔ Q σ)) :
    (∃ b, r.Satisfies I b ∧ P b) ↔ ∃ σ, r.IsSatisfiedUnder I σ ∧ Q σ := by
  constructor
  · rintro ⟨b, hb, hP⟩
    obtain ⟨σ, hσ⟩ := hb.binds.exists_agrees
    exact ⟨σ, (satisfies_iff hσ).mp hb, (hPQ b σ hσ).mp hP⟩
  · rintro ⟨σ, hsat, hQ⟩
    obtain ⟨b, hb⟩ := Bindings.exists_agrees r.bodyVariables σ
    exact ⟨b, (satisfies_iff hb).mpr hsat, (hPQ b σ hb).mpr hQ⟩

theorem entails_iff_yields {d : Derived} : r.Entails I d ↔ r.Yields I d := by
  refine exists_satisfies_iff fun b σ h => exists_congr fun a => and_congr_right fun _ => ?_
  exact Atom.instantiate_eq_ok_iff h

theorem contradicts_iff_isRefuted : r.Contradicts I ↔ ∃ fault, r.IsRefuted I fault := by
  have hdenies (b : Bindings) (σ : Valuation) (h : b.Agrees r.bodyVariables σ) :
      (∃ a ∈ r.head, ∃ fault, a.instantiate r.name b = .error fault) ↔
        ∃ a ∈ r.head, ∃ fault, a.Denies r.bodyVariables σ r.name fault := by
    simp only [Atom.instantiate_eq_error_iff h]
  rw [Contradicts, exists_satisfies_iff hdenies]
  constructor
  · rintro ⟨σ, hσ, a, ha, fault, hfault⟩
    exact ⟨fault, σ, hσ, a, ha, hfault⟩
  · rintro ⟨fault, σ, hσ, a, ha, hfault⟩
    exact ⟨σ, hσ, a, ha, fault, hfault⟩

/-- A rule that fails reports a fault of its head, whatever the order of its body. -/
theorem isRefuted_of_fire {fault : Inconsistency} (h : r.fire I = .error fault) :
    r.IsRefuted I fault := by
  cases hparts : (r.matches I).mapM (fun b => r.head.mapM (·.instantiate r.name b)) with
  | ok parts =>
    rw [fire, hparts] at h
    cases h
  | error fault' =>
    rw [fire, hparts] at h
    cases h
    obtain ⟨b, hb, hhead⟩ := exists_of_mapM_eq_error hparts
    obtain ⟨a, ha, hfault⟩ := exists_of_mapM_eq_error hhead
    have hsat := satisfies_of_mem_matches hb
    obtain ⟨σ, hσ⟩ := hsat.binds.exists_agrees
    exact ⟨σ, (satisfies_iff hσ).mp hsat, a, ha, (Atom.instantiate_eq_error_iff hσ).mp hfault⟩

/-- **A rule adds exactly what it demands, and fails exactly if it is denied.**  In a body whose
order is ready the matches are all values of its variables for which it is true. -/
theorem fire_exact (hready : areReady [] r.body = true) (I : Interpretation) :
    ((∃ fault, r.fire I = .error fault) ↔ ∃ fault, r.IsRefuted I fault) ∧
    (∀ fault, r.fire I = .error fault → r.IsRefuted I fault) ∧
    ∀ ds, r.fire I = .ok ds → ∀ d, d ∈ ds ↔ r.Yields I d := by
  have hfires := firesAsConjunction hready I
  refine ⟨⟨?_, ?_⟩, fun fault h => isRefuted_of_fire h, ?_⟩
  · rintro ⟨fault, h⟩
    exact ⟨fault, isRefuted_of_fire h⟩
  · intro hrefuted
    cases hfire : r.fire I with
    | error fault => exact ⟨fault, rfl⟩
    | ok ds =>
      rw [FiresAsConjunction, hfire] at hfires
      exact absurd (contradicts_iff_isRefuted.mpr hrefuted) hfires.1
  · intro ds hfire d
    rw [FiresAsConjunction, hfire] at hfires
    rw [hfires.2 d, entails_iff_yields]

/-! ### Neighbours -/

/-- Two people who live in the same house, one of them three years old, know each other, and the
house is a home.  The third variable is another name for the first one, and the last one occurs in
the head only. -/
def neighbours : Rule where
  name := "neighbours"
  source := ""
  body := [.fact ⟨0⟩ (.variable "x") (.variable "h"), .fact ⟨0⟩ (.variable "y") (.variable "h"),
    .fact ⟨1⟩ (.variable "y") (.literal (.int 3)), .different (.variable "x") (.variable "y"),
    .same (.variable "z") (.variable "x"), .type ⟨0⟩ (.variable "z")]
  head := [.fact ⟨2⟩ (.variable "z") (.variable "y"), .type ⟨1⟩ (.variable "h"),
    .type ⟨1⟩ (.variable "w")]

/-- Two people live in a house, and the second one is three years old.  A third one is marked as
living nowhere. -/
def street : Interpretation where
  facts := [⟨⟨0⟩, ⟨0⟩, .individual ⟨3⟩⟩, ⟨⟨1⟩, ⟨0⟩, .individual ⟨3⟩⟩,
    ⟨⟨2⟩, ⟨0⟩, .expression .nothing⟩, ⟨⟨1⟩, ⟨1⟩, .literal (.int 3)⟩,
    ⟨⟨2⟩, ⟨1⟩, .literal (.int 3)⟩]
  types := [(⟨0⟩, ⟨0⟩), (⟨1⟩, ⟨0⟩), (⟨2⟩, ⟨0⟩)]

/-- The first one knows the second one and the house is a home, and this is all that the rule says.
With the head that neighbours are the same it fails. -/
theorem fire_neighbours :
    (∀ d, neighbours.Yields street d ↔
      d ∈ [.fact ⟨⟨0⟩, ⟨2⟩, .individual ⟨1⟩⟩, .type ⟨3⟩ ⟨1⟩]) ∧
    IsRefuted { neighbours with head := [.same (.variable "z") (.variable "y")] } street
      (.identified "neighbours" (.individual ⟨0⟩) (.individual ⟨1⟩)) := by
  constructor
  · intro d
    have hfire : neighbours.fire street =
        .ok [.fact ⟨⟨0⟩, ⟨2⟩, .individual ⟨1⟩⟩, .type ⟨3⟩ ⟨1⟩] := by decide
    exact ((fire_exact (r := neighbours) (by decide) street).2.2 _ hfire d).symm
  · have hready : areReady [] neighbours.body = true := by decide
    exact (fire_exact (r := { neighbours with head := [.same (.variable "z") (.variable "y")] })
      hready street).2.1 _ (by decide)

end Rule

end Ontology
