import Ontology.Proofs.Closure
import Ontology.Proofs.Members

/-!
# Bodies of rules

The atoms of a body are matched from left to right.  An atom for a class or a property finds values
for its variables, an equation takes one from its other side, and an atom that two things are
different finds none.  So whether a body can be matched at all depends on the order of its atoms,
while the orders in which it can be matched all amount to the conjunction of the atoms.

## Main definitions

* `Atom.Holds` — an atom holds under bindings.
* `Rule.Satisfies` — all atoms of a body hold under bindings of its variables.
* `areReady` — in this order each atom has the values that it cannot find when its turn comes.
* `Rule.FiresAsConjunction` — a rule adds what its head says for all bindings that satisfy its body.
* `Rule.IsSafe` — what the body compares occurs in an atom for a class or a property as well.

## Main results

* `matchAtoms_grows`, `exists_mem_matchAtoms` — matches satisfy a body, and in an order that is
  ready there is a match for whatever does.
* `matchAtoms_eq_nil` — in any other order there is none.
* `Rule.firesAsConjunction` — **in an order that is ready a rule fires as a conjunction.**
* `Rule.fire_perm` — **what a safe rule adds in which order of its body.**
* `Rule.fire_differ` — a rule that adds nothing because of the order of its body.
-/

namespace Ontology

/-! ### Variables -/

/-- The variables of an argument. -/
def Argument.variableNames : Argument → List String
  | .variable name => [name]
  | .individual _ | .literal _ => []

/-- The variables of an atom. -/
def Atom.variableNames (a : Atom) : List String :=
  a.arguments.flatMap Argument.variableNames

/-- The argument has a value when some variables are bound. -/
def Argument.isBound (bound : List String) (a : Argument) : Bool :=
  a.variableNames.all (· ∈ bound)

/-- The atom has the values that it cannot find when some variables are bound. -/
def Atom.isReady (bound : List String) : Atom → Bool
  | .type _ _ | .fact _ _ _ => true
  | .same x y => x.isBound bound || y.isBound bound
  | .different x y => x.isBound bound && y.isBound bound

/-- Each atom has the values that it cannot find when its turn comes. -/
def areReady (bound : List String) : List Atom → Bool
  | [] => true
  | a :: rest => a.isReady bound && areReady (bound ++ a.variableNames) rest

/-- The atom compares two arguments. -/
def Atom.isComparison : Atom → Bool
  | .same _ _ | .different _ _ => true
  | .type _ _ | .fact _ _ _ => false

/-- The atoms in an order in which those for classes and properties come first. -/
def comparisonsLast (atoms : List Atom) : List Atom :=
  atoms.filter (!·.isComparison) ++ atoms.filter (·.isComparison)

theorem perm_comparisonsLast (atoms : List Atom) : atoms.Perm (comparisonsLast atoms) := by
  have hperm := List.filter_append_perm (fun a : Atom => !a.isComparison) atoms
  simp only [Bool.not_not] at hperm
  exact hperm.symm

theorem areReady_append {bound : List String} {atoms rest : List Atom} :
    areReady bound (atoms ++ rest) =
      (areReady bound atoms && areReady (bound ++ atoms.flatMap Atom.variableNames) rest) := by
  induction atoms generalizing bound with
  | nil => simp [areReady]
  | cons a atoms ih => simp [areReady, ih, Bool.and_assoc]

/-- Atoms for classes and properties are ready in any order. -/
theorem areReady_of_isComparison {bound : List String} {atoms : List Atom}
    (h : ∀ a ∈ atoms, a.isComparison = false) : areReady bound atoms = true := by
  induction atoms generalizing bound with
  | nil => rfl
  | cons a rest ih =>
    rw [areReady, ih fun a' ha' => h a' (List.mem_cons_of_mem a ha'), Bool.and_true]
    have ha := h a List.mem_cons_self
    cases a with
    | type c x => rfl
    | fact p x y => rfl
    | same x y => cases ha
    | different x y => cases ha

/-- Atoms whose variables are all bound are ready in any order. -/
theorem areReady_of_subset {bound : List String} {atoms : List Atom}
    (h : ∀ a ∈ atoms, a.variableNames ⊆ bound) : areReady bound atoms = true := by
  induction atoms generalizing bound with
  | nil => rfl
  | cons a rest ih =>
    have hrest : areReady (bound ++ a.variableNames) rest = true :=
      ih fun a' ha' => List.subset_append_of_subset_left _ (h a' (List.mem_cons_of_mem a ha'))
    rw [areReady, hrest, Bool.and_true]
    have ha := h a List.mem_cons_self
    have hbound {x : Argument} (hx : x ∈ a.arguments) : x.isBound bound = true := by
      rw [Argument.isBound, List.all_eq_true]
      intro name hname
      exact decide_eq_true (ha (List.mem_flatMap.mpr ⟨x, hx, hname⟩))
    cases a with
    | type c x => rfl
    | fact p x y => rfl
    | same x y => rw [Atom.isReady, hbound (by simp [Atom.arguments]), Bool.true_or]
    | different x y =>
      rw [Atom.isReady, hbound (by simp [Atom.arguments]), hbound (by simp [Atom.arguments]),
        Bool.and_self]

/-! ### Bindings -/

namespace Bindings

/-- Larger bindings keep all values. -/
def Within (b b' : Bindings) : Prop :=
  ∀ name v, b.lookup name = some v → b'.lookup name = some v

/-- Exactly the variables of a list have values. -/
def Binds (b : Bindings) (bound : List String) : Prop :=
  ∀ name, (b.lookup name).isSome = true ↔ name ∈ bound

/-- Larger bindings have values for the variables of a list, but not for any others. -/
structure Grows (b : Bindings) (names : List String) (b' : Bindings) : Prop where
  within : b.Within b'
  binds : ∀ name, (b'.lookup name).isSome = true ↔ (b.lookup name).isSome = true ∨ name ∈ names

variable {b b' b₁ : Bindings} {names names' bound : List String}

theorem Within.refl (b : Bindings) : b.Within b := fun _ _ h => h

theorem Within.trans (h : b.Within b₁) (h' : b₁.Within b') : b.Within b' :=
  fun name v hv => h' name v (h name v hv)

/-- There is nothing to add for variables that have values. -/
theorem Grows.of_isSome (h : ∀ name ∈ names, (b.lookup name).isSome = true) : b.Grows names b where
  within := .refl b
  binds name := ⟨.inl, fun hname => hname.elim id (h name)⟩

theorem Grows.trans (h : b.Grows names b₁) (h' : b₁.Grows names' b') :
    b.Grows (names ++ names') b' where
  within := h.within.trans h'.within
  binds name := by rw [h'.binds, h.binds, List.mem_append, or_assoc]

theorem Binds.grows (hb : b.Binds bound) (h : b.Grows names b') : b'.Binds (bound ++ names) := by
  intro name
  rw [h.binds, hb name, List.mem_append]

theorem binds_nil : Binds [] [] := by simp [Binds]

/-- Bindings of the same variables are the same if one of them keeps all values of the other one. -/
theorem Within.lookup_eq (h : b.Within b') (hb : b.Binds bound) (hb' : b'.Binds bound)
    (name : String) : b'.lookup name = b.lookup name := by
  cases hname : b.lookup name with
  | some v => exact h name v hname
  | none =>
    have hnone : ¬(b'.lookup name).isSome = true := by
      rw [hb' name, ← hb name, hname]
      exact Bool.false_ne_true
    rwa [Option.not_isSome_iff_eq_none] at hnone

end Bindings

namespace Argument

variable {b b' β : Bindings} {a : Argument} {v : Value}

theorem value?_within (h : b.Within b') (hv : a.value? b = some v) : a.value? b' = some v := by
  cases a with
  | «variable» name => exact h name v hv
  | individual i => exact hv
  | literal l => exact hv

/-- An argument has no other value under larger bindings. -/
theorem eq_of_within {u : Value} (h : b.Within β) (hu : a.value? b = some u)
    (hv : a.value? β = some v) : u = v := by
  have hkept := value?_within h hu
  rw [hv] at hkept
  exact (Option.some.inj hkept).symm

/-- An argument has a value if its variable has. -/
theorem isBound_iff {bound : List String} (hb : b.Binds bound) :
    a.isBound bound = true ↔ (a.value? b).isSome = true := by
  cases a with
  | «variable» name => simp [isBound, variableNames, value?, hb name]
  | individual i => simp [isBound, variableNames, value?]
  | literal l => simp [isBound, variableNames, value?]

theorem grows_of_value? (hv : a.value? b = some v) : b.Grows a.variableNames b := by
  refine .of_isSome fun name hname => ?_
  cases a with
  | «variable» x =>
    cases List.mem_singleton.mp hname
    rw [show b.lookup name = some v from hv, Option.isSome_some]
  | individual i => cases hname
  | literal l => cases hname

/-- An argument that is made to have a value binds its variable to that. -/
theorem grows_of_unify (h : a.unify b v = some b') :
    b.Grows a.variableNames b' ∧ a.value? b' = some v := by
  rcases unify_eq_some_iff.mp h with ⟨hv, rfl⟩ | ⟨x, rfl, hnone, rfl⟩
  · exact ⟨grows_of_value? hv, hv⟩
  · have hlookup (name : String) :
        List.lookup name ((x, v) :: b) = if name = x then some v else b.lookup name := by
      by_cases hname : name = x
      · rw [if_pos hname, hname, List.lookup_cons_self]
      · rw [if_neg hname, List.lookup_cons, beq_eq_false_iff_ne.mpr hname]
    refine ⟨⟨fun name u hu => ?_, fun name => ?_⟩, ?_⟩
    · have hne : name ≠ x := by
        rintro rfl
        rw [hnone] at hu
        cases hu
      rw [hlookup, if_neg hne]
      exact hu
    · rw [hlookup]
      by_cases hname : name = x <;> simp [variableNames, hname]
    · rw [value?, hlookup, if_pos rfl]

/-- A value that larger bindings give to an argument can be taken over. -/
theorem exists_unify (h : b.Within β) (hv : a.value? β = some v) :
    ∃ b', a.unify b v = some b' ∧ b'.Within β := by
  cases hvalue : a.value? b with
  | some u =>
    obtain rfl := eq_of_within h hvalue hv
    exact ⟨b, unify_eq_some_iff.mpr (.inl ⟨hvalue, rfl⟩), h⟩
  | none =>
    cases a with
    | «variable» x =>
      refine ⟨(x, v) :: b, unify_eq_some_iff.mpr (.inr ⟨x, rfl, hvalue, rfl⟩), fun name u hu => ?_⟩
      rw [List.lookup_cons] at hu
      split at hu
      · next hname =>
        rw [beq_iff_eq.mp hname, ← hu]
        exact hv
      · exact h name u hu
    | individual i => cases hvalue
    | literal l => cases hvalue

end Argument

/-! ### Atoms -/

namespace Atom

variable {I : Interpretation} {a : Atom} {b b' β : Bindings} {bound : List String}

/-- An atom holds under bindings. -/
def Holds (I : Interpretation) (b : Bindings) : Atom → Prop
  | .type c x => ∃ i, x.value? b = some (.individual i) ∧ (i, c) ∈ I.types
  | .fact p x y => ∃ i v, x.value? b = some (.individual i) ∧ y.value? b = some v ∧
      v.isNothing = false ∧ ⟨i, p, v⟩ ∈ I.facts
  | .same x y => ∃ v, x.value? b = some v ∧ y.value? b = some v
  | .different x y => ∃ u v, x.value? b = some u ∧ y.value? b = some v ∧ u ≠ v

/-- An atom that holds goes on holding when other variables get values. -/
theorem Holds.within (h : b.Within b') (ha : a.Holds I b) : a.Holds I b' := by
  cases a with
  | type c x =>
    obtain ⟨i, hx, hi⟩ := ha
    exact ⟨i, Argument.value?_within h hx, hi⟩
  | fact p x y =>
    obtain ⟨i, v, hx, hy, hv, hf⟩ := ha
    exact ⟨i, v, Argument.value?_within h hx, Argument.value?_within h hy, hv, hf⟩
  | same x y =>
    obtain ⟨v, hx, hy⟩ := ha
    exact ⟨v, Argument.value?_within h hx, Argument.value?_within h hy⟩
  | different x y =>
    obtain ⟨u, v, hx, hy, hne⟩ := ha
    exact ⟨u, v, Argument.value?_within h hx, Argument.value?_within h hy, hne⟩

@[simp] theorem variableNames_type {c : ClassId} {x : Argument} :
    (Atom.type c x).variableNames = x.variableNames := by
  simp [variableNames, arguments]

@[simp] theorem variableNames_fact {p : PropertyId} {x y : Argument} :
    (Atom.fact p x y).variableNames = x.variableNames ++ y.variableNames := by
  simp [variableNames, arguments]

@[simp] theorem variableNames_same {x y : Argument} :
    (Atom.same x y).variableNames = x.variableNames ++ y.variableNames := by
  simp [variableNames, arguments]

@[simp] theorem variableNames_different {x y : Argument} :
    (Atom.different x y).variableNames = x.variableNames ++ y.variableNames := by
  simp [variableNames, arguments]

/-- An atom that is matched holds and has values for its variables. -/
theorem grows_of_mem_extensions (h : b' ∈ a.extensions I b) :
    b.Grows a.variableNames b' ∧ a.Holds I b' := by
  cases a with
  | type c x =>
    rw [variableNames_type]
    rw [extensions] at h
    split at h
    · next i hx =>
      split at h
      · next hi =>
        cases List.mem_singleton.mp h
        exact ⟨Argument.grows_of_value? hx, i, hx, Interpretation.hasType_iff.mp hi⟩
      · cases h
    · cases h
    · obtain ⟨i, hi, hunify⟩ := List.mem_filterMap.mp h
      obtain ⟨hgrows, hx⟩ := Argument.grows_of_unify hunify
      exact ⟨hgrows, i, hx, Interpretation.mem_instancesOf.mp hi⟩
  | fact p x y =>
    rw [variableNames_fact]
    obtain ⟨⟨i, v⟩, hf, h⟩ := List.mem_filterMap.mp h
    dsimp only at h
    split at h
    · cases h
    · next hv =>
      obtain ⟨b₁, hunify, hunify'⟩ := Option.bind_eq_some_iff.mp h
      obtain ⟨hgrows, hx⟩ := Argument.grows_of_unify hunify
      obtain ⟨hgrows', hy⟩ := Argument.grows_of_unify hunify'
      exact ⟨hgrows.trans hgrows', i, v, Argument.value?_within hgrows'.within hx, hy,
        by simpa using hv, Interpretation.mem_factsOf.mp hf⟩
  | same x y =>
    rw [variableNames_same]
    rw [extensions] at h
    split at h
    · next u v hx hy =>
      split at h
      · next heq =>
        cases List.mem_singleton.mp h
        subst heq
        exact ⟨(Argument.grows_of_value? hx).trans (Argument.grows_of_value? hy), u, hx, hy⟩
      · cases h
    · next u hx _ =>
      obtain ⟨hgrows, hy⟩ := Argument.grows_of_unify (Option.mem_toList.mp h)
      exact ⟨(Argument.grows_of_value? hx).trans hgrows, u,
        Argument.value?_within hgrows.within hx, hy⟩
    · next v _ hy =>
      obtain ⟨hgrows, hx⟩ := Argument.grows_of_unify (Option.mem_toList.mp h)
      have hy' := Argument.value?_within hgrows.within hy
      exact ⟨hgrows.trans (Argument.grows_of_value? hy'), v, hx, hy'⟩
    · cases h
  | different x y =>
    rw [variableNames_different]
    rw [extensions] at h
    split at h
    · next u v hx hy =>
      split at h
      · cases h
      · next hne =>
        cases List.mem_singleton.mp h
        exact ⟨(Argument.grows_of_value? hx).trans (Argument.grows_of_value? hy), u, v, hx, hy, hne⟩
    · cases h

/-- An atom that is ready is matched in each way in which it can hold. -/
theorem exists_mem_extensions (hb : b.Binds bound) (hready : a.isReady bound = true)
    (h : b.Within β) (ha : a.Holds I β) : ∃ b' ∈ a.extensions I b, b'.Within β := by
  cases a with
  | type c x =>
    obtain ⟨i, hx, hi⟩ := ha
    rw [extensions]
    cases hvalue : x.value? b with
    | some u =>
      cases Argument.eq_of_within h hvalue hx
      exact ⟨b, by simp [hi], h⟩
    | none =>
      obtain ⟨b', hunify, hwithin⟩ := Argument.exists_unify h hx
      exact ⟨b', List.mem_filterMap.mpr ⟨i, Interpretation.mem_instancesOf.mpr hi, hunify⟩, hwithin⟩
  | fact p x y =>
    obtain ⟨i, v, hx, hy, hv, hf⟩ := ha
    obtain ⟨b₁, hunify, hwithin⟩ := Argument.exists_unify h hx
    obtain ⟨b', hunify', hwithin'⟩ := Argument.exists_unify hwithin hy
    refine ⟨b', List.mem_filterMap.mpr ⟨(i, v), Interpretation.mem_factsOf.mpr hf, ?_⟩, hwithin'⟩
    simp [hv, hunify, hunify']
  | same x y =>
    obtain ⟨v, hx, hy⟩ := ha
    rw [isReady, Bool.or_eq_true, Argument.isBound_iff hb, Argument.isBound_iff hb] at hready
    rw [extensions]
    cases hxb : x.value? b with
    | some u =>
      obtain rfl := Argument.eq_of_within h hxb hx
      cases hyb : y.value? b with
      | some u' =>
        obtain rfl := Argument.eq_of_within h hyb hy
        exact ⟨b, by simp, h⟩
      | none =>
        obtain ⟨b', hunify, hwithin⟩ := Argument.exists_unify h hy
        exact ⟨b', by simp [hunify], hwithin⟩
    | none =>
      cases hyb : y.value? b with
      | some u =>
        obtain rfl := Argument.eq_of_within h hyb hy
        obtain ⟨b', hunify, hwithin⟩ := Argument.exists_unify h hx
        exact ⟨b', by simp [hunify], hwithin⟩
      | none => simp [hxb, hyb] at hready
  | different x y =>
    obtain ⟨u, v, hx, hy, hne⟩ := ha
    rw [isReady, Bool.and_eq_true, Argument.isBound_iff hb, Argument.isBound_iff hb] at hready
    obtain ⟨u', hxb⟩ := Option.isSome_iff_exists.mp hready.1
    obtain ⟨v', hyb⟩ := Option.isSome_iff_exists.mp hready.2
    obtain rfl := Argument.eq_of_within h hxb hx
    obtain rfl := Argument.eq_of_within h hyb hy
    exact ⟨b, by simp [extensions, hxb, hyb, hne], h⟩

/-- An atom that is not ready is not matched. -/
theorem extensions_eq_nil (hb : b.Binds bound) (hready : a.isReady bound = false) :
    a.extensions I b = [] := by
  have hnone {x : Argument} (hx : x.isBound bound = false) : x.value? b = none := by
    rw [← Bool.not_eq_true, Argument.isBound_iff hb] at hx
    simpa using hx
  cases a with
  | type c x => cases hready
  | fact p x y => cases hready
  | same x y =>
    rw [isReady, Bool.or_eq_false_iff] at hready
    rw [extensions, hnone hready.1, hnone hready.2]
  | different x y =>
    rw [isReady, Bool.and_eq_false_iff] at hready
    rw [extensions]
    rcases hready with hx | hy
    · rw [hnone hx]
    · rw [hnone hy]
      cases x.value? b <;> rfl

/-- What an atom of a head adds depends on the values of its variables only. -/
theorem instantiate_congr {rule : String} (h : ∀ name, b'.lookup name = b.lookup name) :
    a.instantiate rule b' = a.instantiate rule b := by
  have hvalue (x : Argument) : x.value? b' = x.value? b := by
    cases x with
    | «variable» name => exact h name
    | individual i => rfl
    | literal l => rfl
  cases a <;> simp only [instantiate, hvalue]

end Atom

/-! ### Bodies -/

section Matching

variable {I : Interpretation} {atoms : List Atom} {b b' β : Bindings} {bound : List String}

/-- All atoms hold under a match, which has values for their variables. -/
theorem matchAtoms_grows (h : b' ∈ matchAtoms I atoms b) :
    b.Grows (atoms.flatMap Atom.variableNames) b' ∧ ∀ a ∈ atoms, a.Holds I b' := by
  induction atoms generalizing b with
  | nil =>
    rw [matchAtoms, List.mem_singleton] at h
    subst h
    exact ⟨.of_isSome (by simp), by simp⟩
  | cons a rest ih =>
    rw [matchAtoms, List.mem_flatMap] at h
    obtain ⟨b₁, hb₁, hb'⟩ := h
    obtain ⟨hgrows, ha⟩ := Atom.grows_of_mem_extensions hb₁
    obtain ⟨hgrows', hrest⟩ := ih hb'
    refine ⟨hgrows.trans hgrows', fun a' ha' => ?_⟩
    rcases List.mem_cons.mp ha' with rfl | ha'
    · exact ha.within hgrows'.within
    · exact hrest a' ha'

/-- In an order that is ready atoms are matched in each way in which they can hold. -/
theorem exists_mem_matchAtoms (hb : b.Binds bound) (hready : areReady bound atoms = true)
    (h : b.Within β) (hatoms : ∀ a ∈ atoms, a.Holds I β) :
    ∃ b' ∈ matchAtoms I atoms b, b'.Within β := by
  induction atoms generalizing b bound with
  | nil => exact ⟨b, List.mem_singleton_self b, h⟩
  | cons a rest ih =>
    rw [areReady, Bool.and_eq_true] at hready
    obtain ⟨b₁, hb₁, hwithin⟩ :=
      Atom.exists_mem_extensions hb hready.1 h (hatoms a List.mem_cons_self)
    have hbinds : b₁.Binds (bound ++ a.variableNames) :=
      hb.grows (Atom.grows_of_mem_extensions hb₁).1
    obtain ⟨b', hb', hwithin'⟩ :=
      ih hbinds hready.2 hwithin fun a' ha' => hatoms a' (List.mem_cons_of_mem a ha')
    rw [matchAtoms]
    exact ⟨b', List.mem_flatMap.mpr ⟨b₁, hb₁, hb'⟩, hwithin'⟩

/-- In any other order atoms are not matched. -/
theorem matchAtoms_eq_nil (hb : b.Binds bound) (hready : areReady bound atoms = false) :
    matchAtoms I atoms b = [] := by
  induction atoms generalizing b bound with
  | nil => cases hready
  | cons a rest ih =>
    rw [matchAtoms, List.flatMap_eq_nil_iff]
    intro b₁ hb₁
    rw [areReady, Bool.and_eq_false_iff] at hready
    rcases hready with ha | hrest
    · rw [Atom.extensions_eq_nil hb ha] at hb₁
      cases hb₁
    · exact ih (hb.grows (Atom.grows_of_mem_extensions hb₁).1) hrest

end Matching

/-! ### Rules -/

namespace Rule

variable {I : Interpretation} {r : Rule} {b : Bindings}

/-- The variables of a body have values under which all atoms hold. -/
structure Satisfies (r : Rule) (I : Interpretation) (b : Bindings) : Prop where
  binds : b.Binds (r.body.flatMap Atom.variableNames)
  holds : ∀ a ∈ r.body, a.Holds I b

/-- The order of the atoms does not matter to what satisfies a body. -/
theorem Satisfies.perm {body : List Atom} (hperm : r.body.Perm body) :
    Satisfies { r with body } I b ↔ r.Satisfies I b := by
  have hnames (name : String) :
      name ∈ body.flatMap Atom.variableNames ↔ name ∈ r.body.flatMap Atom.variableNames := by
    simp only [List.mem_flatMap, hperm.mem_iff]
  constructor
  · intro h
    exact ⟨fun name => (h.binds name).trans (hnames name),
      fun a ha => h.holds a (hperm.mem_iff.mp ha)⟩
  · intro h
    exact ⟨fun name => (h.binds name).trans (hnames name).symm,
      fun a ha => h.holds a (hperm.mem_iff.mpr ha)⟩

theorem satisfies_of_mem_matches (h : b ∈ r.matches I) : r.Satisfies I b := by
  obtain ⟨hgrows, hatoms⟩ := matchAtoms_grows h
  exact ⟨Bindings.binds_nil.grows hgrows, hatoms⟩

/-- In an order that is ready every way to satisfy a body is a match. -/
theorem exists_mem_matches (hready : areReady [] r.body = true) (h : r.Satisfies I b) :
    ∃ b' ∈ r.matches I, ∀ name, b'.lookup name = b.lookup name := by
  have hempty : Bindings.Within [] b := by
    intro name v hv
    cases hv
  obtain ⟨b', hb', hwithin⟩ := exists_mem_matchAtoms Bindings.binds_nil hready hempty h.holds
  have hbinds := (satisfies_of_mem_matches hb').binds
  exact ⟨b', hb', fun name => (hwithin.lookup_eq hbinds h.binds name).symm⟩

/-! #### What a rule adds -/

/-- The head adds something where the body is satisfied. -/
def Entails (r : Rule) (I : Interpretation) (d : Derived) : Prop :=
  ∃ b, r.Satisfies I b ∧ ∃ a ∈ r.head, a.instantiate r.name b = .ok (some d)

/-- The head cannot hold where the body is satisfied. -/
def Contradicts (r : Rule) (I : Interpretation) : Prop :=
  ∃ b, r.Satisfies I b ∧ ∃ a ∈ r.head, ∃ fault, a.instantiate r.name b = .error fault

/-- A rule fails if the body is satisfied where the head cannot hold, and else it adds what the head
says wherever the body is satisfied. -/
def FiresAsConjunction (r : Rule) (I : Interpretation) : Prop :=
  match r.fire I with
  | .ok ds => ¬r.Contradicts I ∧ ∀ d, d ∈ ds ↔ r.Entails I d
  | .error _ => r.Contradicts I

/-- **In an order that is ready a rule fires as a conjunction.** -/
theorem firesAsConjunction (hready : areReady [] r.body = true) (I : Interpretation) :
    r.FiresAsConjunction I := by
  rw [FiresAsConjunction]
  cases hfire : r.fire I with
  | ok ds =>
    dsimp only
    have hok := exists_fire_eq_ok_iff.mp ⟨ds, hfire⟩
    constructor
    · rintro ⟨b, hb, a, ha, fault, hfault⟩
      obtain ⟨b', hb', hsame⟩ := exists_mem_matches hready hb
      obtain ⟨d, hd⟩ := hok b' hb' a ha
      rw [Atom.instantiate_congr hsame, hfault] at hd
      cases hd
    · intro d
      rw [mem_fire hfire]
      constructor
      · rintro ⟨b, hb, hd⟩
        exact ⟨b, satisfies_of_mem_matches hb, hd⟩
      · rintro ⟨b, hb, a, ha, hd⟩
        obtain ⟨b', hb', hsame⟩ := exists_mem_matches hready hb
        exact ⟨b', hb', a, ha, (Atom.instantiate_congr hsame).trans hd⟩
  | error fault =>
    dsimp only
    by_contra hnone
    have hok : ∃ ds, r.fire I = .ok ds := by
      refine exists_fire_eq_ok_iff.mpr fun b hb a ha => ?_
      cases hinstantiate : a.instantiate r.name b with
      | ok d => exact ⟨d, rfl⟩
      | error fault =>
        exact absurd ⟨b, satisfies_of_mem_matches hb, a, ha, fault, hinstantiate⟩ hnone
    obtain ⟨ds, hds⟩ := hok
    rw [hfire] at hds
    cases hds

/-- In any other order a rule adds nothing and does not fail. -/
theorem fire_eq_nil (hready : areReady [] r.body = false) (I : Interpretation) :
    r.fire I = .ok [] := by
  have hmatches : r.matches I = [] := matchAtoms_eq_nil Bindings.binds_nil hready
  rw [fire, hmatches]
  rfl

/-! #### Orders of a body -/

/-- Two runs add the same or both fail. -/
def SameOutcome : Except Inconsistency (List Derived) → Except Inconsistency (List Derived) → Prop
  | .ok ds, .ok ds' => ∀ d, d ∈ ds ↔ d ∈ ds'
  | .error _, .error _ => True
  | _, _ => False

/-- Rules that fire as the same conjunction have the same outcome. -/
theorem FiresAsConjunction.sameOutcome {body : List Atom} (hperm : r.body.Perm body)
    (h : r.FiresAsConjunction I) (h' : FiresAsConjunction { r with body } I) :
    SameOutcome (r.fire I) (fire I { r with body }) := by
  have hentails (d : Derived) : Entails { r with body } I d ↔ r.Entails I d :=
    exists_congr fun b => and_congr_left' (Satisfies.perm hperm)
  have hcontradicts : Contradicts { r with body } I ↔ r.Contradicts I :=
    exists_congr fun b => and_congr_left' (Satisfies.perm hperm)
  rw [FiresAsConjunction] at h h'
  cases hfire : r.fire I with
  | ok ds =>
    rw [hfire] at h
    cases hfire' : fire I { r with body } with
    | ok ds' =>
      rw [hfire'] at h'
      intro d
      rw [h.2 d, h'.2 d, hentails]
    | error fault =>
      rw [hfire'] at h'
      exact absurd (hcontradicts.mp h') h.1
  | error fault =>
    rw [hfire] at h
    cases hfire' : fire I { r with body } with
    | ok ds' =>
      rw [hfire'] at h'
      exact absurd (hcontradicts.mpr h) h'.1
    | error fault' => trivial

/-- What a body compares occurs in an atom for a class or a property as well. -/
def IsSafe (r : Rule) : Prop :=
  ∀ a ∈ r.body, a.isComparison = true → ∀ name ∈ a.variableNames,
    ∃ a' ∈ r.body, a'.isComparison = false ∧ name ∈ a'.variableNames

instance (r : Rule) : Decidable r.IsSafe :=
  inferInstanceAs (Decidable (∀ a ∈ r.body, a.isComparison = true → ∀ name ∈ a.variableNames,
    ∃ a' ∈ r.body, a'.isComparison = false ∧ name ∈ a'.variableNames))

/-- The body of a safe rule can be matched in some order. -/
theorem IsSafe.areReady_comparisonsLast (h : r.IsSafe) :
    areReady [] (comparisonsLast r.body) = true := by
  rw [comparisonsLast, areReady_append, Bool.and_eq_true]
  refine ⟨areReady_of_isComparison fun a ha => by simpa using (List.mem_filter.mp ha).2, ?_⟩
  refine areReady_of_subset fun a ha name hname => ?_
  obtain ⟨hbody, hcomparison⟩ := List.mem_filter.mp ha
  obtain ⟨a', ha', hfact, hname'⟩ := h a hbody hcomparison name hname
  rw [List.nil_append, List.mem_flatMap]
  exact ⟨a', List.mem_filter.mpr ⟨ha', by simp [hfact]⟩, hname'⟩

/-- **What a safe rule adds in which order of its body.**  In each order that is ready, and there is
one, it fires as a conjunction, so that the outcome is the same in all of them.  In each order that
is not ready it adds nothing and does not fail. -/
theorem fire_perm (hsafe : r.IsSafe) (I : Interpretation) :
    (∃ body, r.body.Perm body ∧ areReady [] body = true) ∧
    (∀ body, r.body.Perm body → areReady [] body = true →
      FiresAsConjunction { r with body } I ∧
        ∀ body', r.body.Perm body' → areReady [] body' = true →
          SameOutcome (fire I { r with body }) (fire I { r with body := body' })) ∧
    ∀ body, r.body.Perm body → areReady [] body = false → fire I { r with body } = .ok [] := by
  refine ⟨⟨_, perm_comparisonsLast r.body, hsafe.areReady_comparisonsLast⟩, ?_, ?_⟩
  · intro body hperm hready
    have hfires : FiresAsConjunction { r with body } I := firesAsConjunction hready I
    refine ⟨hfires, fun body' hperm' hready' => ?_⟩
    have hfires' : FiresAsConjunction { r with body := body' } I := firesAsConjunction hready' I
    exact hfires.sameOutcome (hperm.symm.trans hperm') hfires'
  · intro body _ hready
    exact fire_eq_nil hready I

/-! #### Two members of a class -/

/-- Different members of a class are related. -/
def differ : Rule where
  name := "differ"
  source := ""
  body := [.different (.variable "x") (.variable "y"), .type ⟨0⟩ (.variable "x"),
    .type ⟨0⟩ (.variable "y")]
  head := [.fact ⟨0⟩ (.variable "x") (.variable "y")]

/-- A class with two members. -/
def twoMembers : Interpretation where
  types := [(⟨0⟩, ⟨0⟩), (⟨1⟩, ⟨0⟩)]

/-- With the comparison behind the members the rule fires as a conjunction, in front of them it adds
nothing. -/
theorem fire_perm_differ :
    differ.IsSafe ∧
      FiresAsConjunction { differ with body := comparisonsLast differ.body } twoMembers ∧
      differ.fire twoMembers = .ok [] := by
  have hsafe : differ.IsSafe := by decide
  obtain ⟨-, hready, hunready⟩ := fire_perm hsafe twoMembers
  exact ⟨hsafe, (hready _ (perm_comparisonsLast _) (by decide)).1, hunready _ (.refl _) (by decide)⟩

/-- **The order of a body matters.**  A rule that starts with the comparison of two variables adds
nothing; with the comparison at the end it relates the two members. -/
theorem fire_differ :
    differ.IsSafe ∧ differ.body.Perm (comparisonsLast differ.body) ∧
      differ.fire twoMembers = .ok [] ∧
      fire twoMembers { differ with body := comparisonsLast differ.body }
        = .ok [.fact ⟨⟨0⟩, ⟨0⟩, .individual ⟨1⟩⟩, .fact ⟨⟨1⟩, ⟨0⟩, .individual ⟨0⟩⟩] :=
  ⟨by decide, by decide, by decide, by decide⟩

end Rule

end Ontology
