import Ontology.Loading.Restriction
import Ontology.Proofs.Grounded

/-!
# The notation of restrictions

A restriction is written in layers.  Each consists of a role, below `Inverse` if it is read
backwards, and a quantifier; `some` may be followed by a further layer, and the innermost layer ends
with a scalar.  What is read are these texts and no others, and what has been read can be written
again.

## Main definitions

* `WrittenRole`, `WrittenRestriction` — layers as they are written, with their trees.
* `World.Reads` — the restriction that layers stand for.
* `World.Understands` — the roles are properties, and the scalar can be the target of a restriction.
* `Restriction.written?` — a restriction in this notation.

## Main results

* `World.readRestriction_eq_ok_iff` — a tree is read as a restriction if and only if it consists of
  layers that stand for it.
* `World.Reads.written` — **what has been read can be written and read again.**
* `World.readRestriction_unknown` — an undeclared role below roles that are properties is named by
  the error.
* `World.readRestriction_exact` — **all of this for every tree.**
-/

namespace Ontology

/-! ### Layers -/

/-- A role as it is written, below `Inverse` or not. -/
structure WrittenRole where
  name : String
  isInverse : Bool
  deriving DecidableEq, Repr

namespace WrittenRole

/-- The mapping that has a role in front of something. -/
def before (r : WrittenRole) (value : Tree) : Tree :=
  if r.isInverse then .mapping [(.string "Inverse", .mapping [(.string r.name, value)])]
  else .mapping [(.string r.name, value)]

/-- A layer in front of what its quantifier asks for. -/
def layer (r : WrittenRole) (q : Quantifier) (target : Tree) : Tree :=
  r.before (.mapping [(.string q.name, target)])

/-- A property read in the direction of the role. -/
def expression (r : WrittenRole) (p : PropertyId) : PropertyExpression :=
  if r.isInverse then .inverse p else .named p

/-- What is wrong with a role that is another entity. -/
def fault (r : WrittenRole) : LoadFault :=
  if r.isInverse then .roleAfterInverse r.name else .notRole r.name

theorem exists_before_eq (r : WrittenRole) (value : Tree) :
    ∃ entries, r.before value = .mapping entries := by
  rw [before]
  split <;> exact ⟨_, rfl⟩

@[simp] theorem property_expression (r : WrittenRole) (p : PropertyId) :
    (r.expression p).property = p := by
  rw [expression]
  split <;> rfl

@[simp] theorem isInverse_expression (r : WrittenRole) (p : PropertyId) :
    (r.expression p).isInverse = r.isInverse := by
  rw [expression]
  split
  · next h => exact h.symm
  · next h => exact (Bool.eq_false_iff.mpr h).symm

/-- A property expression is determined by its property and its direction. -/
theorem expression_eq {r : WrittenRole} {e : PropertyExpression} (h : e.isInverse = r.isInverse) :
    r.expression e.property = e := by
  rw [expression, ← h]
  cases e <;> rfl

end WrittenRole

/-- A restriction as it is written, from the outside in. -/
inductive WrittenRestriction where
  /-- The layer in front of the scalar. -/
  | innermost (role : WrittenRole) (quantifier : Quantifier) (target : Tree)
  /-- A layer in front of another one, with `some` between them. -/
  | outer (role : WrittenRole) (inner : WrittenRestriction)

namespace WrittenRestriction

/-- The tree of the layers. -/
def tree : WrittenRestriction → Tree
  | innermost role q target => role.layer q target
  | outer role inner => role.layer .some inner.tree

/-- The roles and the quantifiers, from the outside in. -/
def layers : WrittenRestriction → List (WrittenRole × Quantifier)
  | innermost role q _ => [(role, q)]
  | outer role inner => (role, .some) :: inner.layers

/-- The scalar behind all layers. -/
def target : WrittenRestriction → Tree
  | innermost _ _ target => target
  | outer _ inner => inner.target

end WrittenRestriction

/-! ### Targets -/

/-- Individuals, classes, datatypes and literals can be the target of a restriction, and so can the
two classes of the vocabulary. -/
def Term.IsTarget : Term → Prop
  | .entity _ (.individual _) | .entity _ (.class _) | .entity _ .thing | .entity _ .nothing
  | .entity _ (.datatype _) | .literal _ | .unresolved _ => True
  | _ => False

theorem Term.isTarget_iff {t : Term} : t.IsTarget ↔ ∃ f, t.toFiller = .ok f := by
  cases t with
  | entity name e => cases e <;> simp [IsTarget, toFiller, LoadFault.raise]
  | literal l => simp [IsTarget, toFiller]
  | unresolved text => simp [IsTarget, toFiller]

/-- A target has no layers of its own. -/
theorem Term.layers_of_toFiller {t : Term} {f : Filler} (h : t.toFiller = .ok f) :
    f.layers = [] ∧ f.innermost = f := by
  rw [toFiller.eq_def] at h
  split at h
  all_goals
    first
    | exact absurd h LoadFault.raise_ne_ok
    | exact Except.ok.inj h ▸ ⟨rfl, rfl⟩

namespace World

variable {w : World}

/-- The scalar stands for what a restriction asks for; an unknown name stands for itself. -/
def ReadsTarget (w : World) (target : Tree) (f : Filler) : Prop :=
  ∃ t, w.resolve true target = .ok t ∧ t.toFiller = .ok f

/-- The role is a property, read in this direction. -/
def ReadsRole (w : World) (r : WrittenRole) (e : PropertyExpression) : Prop :=
  w.lookup? r.name = some (.property e.property) ∧ e.isInverse = r.isInverse

/-- The restriction that layers stand for. -/
inductive Reads (w : World) : WrittenRestriction → Restriction → Prop where
  | innermost {role : WrittenRole} {e : PropertyExpression} {q : Quantifier} {target : Tree}
    {f : Filler} : w.ReadsRole role e → w.ReadsTarget target f →
      Reads w (.innermost role q target) ⟨e, q, f⟩
  | outer {role : WrittenRole} {e : PropertyExpression} {inner : WrittenRestriction}
    {r : Restriction} : w.ReadsRole role e → Reads w inner r →
      Reads w (.outer role inner) ⟨e, .some, .expression r.toExpression⟩

/-- All roles are properties, and the scalar can be the target of a restriction. -/
def Understands (w : World) (n : WrittenRestriction) : Prop :=
  (∀ l ∈ n.layers, ∃ p, w.lookup? l.1.name = some (.property p)) ∧
    ∃ t, w.resolve true n.target = .ok t ∧ t.IsTarget

theorem Reads.understands {n : WrittenRestriction} {r : Restriction} (h : w.Reads n r) :
    w.Understands n := by
  induction h with
  | innermost hrole htarget =>
    obtain ⟨t, ht, hf⟩ := htarget
    exact ⟨by simpa [WrittenRestriction.layers] using ⟨_, hrole.1⟩,
      t, ht, Term.isTarget_iff.mpr ⟨_, hf⟩⟩
  | outer hrole _ ih =>
    refine ⟨fun l hl => ?_, ih.2⟩
    rcases List.mem_cons.mp hl with rfl | hl
    · exact ⟨_, hrole.1⟩
    · exact ih.1 l hl

theorem exists_reads_of_understands {n : WrittenRestriction} (h : w.Understands n) :
    ∃ r, w.Reads n r := by
  have hrole : ∀ role : WrittenRole, (∃ p, w.lookup? role.name = some (.property p)) →
      ∃ e, w.ReadsRole role e := by
    rintro role ⟨p, hp⟩
    exact ⟨role.expression p, by rw [role.property_expression]; exact hp,
      role.isInverse_expression p⟩
  induction n with
  | innermost role q target =>
    obtain ⟨e, he⟩ := hrole role (h.1 _ (List.mem_singleton_self _))
    obtain ⟨t, ht, htarget⟩ := h.2
    obtain ⟨f, hf⟩ := Term.isTarget_iff.mp htarget
    exact ⟨_, .innermost he ⟨t, ht, hf⟩⟩
  | outer role inner ih =>
    obtain ⟨e, he⟩ := hrole role (h.1 _ List.mem_cons_self)
    obtain ⟨r, hr⟩ := ih ⟨fun l hl => h.1 l (List.mem_cons_of_mem _ hl), h.2⟩
    exact ⟨_, .outer he hr⟩

/-- The layers of a restriction are those that were written, in the same order, and its terminal is
what the scalar stands for. -/
theorem Reads.chain {n : WrittenRestriction} {r : Restriction} (h : w.Reads n r) :
    List.Forall₂ (fun l c => w.ReadsRole l.1 c.1 ∧ c.2 = l.2) n.layers r.chain ∧
      w.ReadsTarget n.target r.terminal := by
  induction h with
  | innermost hrole htarget =>
    obtain ⟨t, ht, hf⟩ := htarget
    obtain ⟨hlayers, hinnermost⟩ := Term.layers_of_toFiller hf
    refine ⟨?_, t, ht, ?_⟩
    · rw [Restriction.chain, hlayers]
      exact .cons ⟨hrole, rfl⟩ .nil
    · rw [Restriction.terminal, hinnermost]
      exact hf
  | @outer role e inner r hrole _ ih =>
    have hchain : Filler.layers (.expression r.toExpression) = r.chain := rfl
    have hterminal : Filler.innermost (.expression r.toExpression) = r.terminal := rfl
    refine ⟨?_, ?_⟩
    · rw [Restriction.chain, hchain]
      exact .cons ⟨hrole, rfl⟩ ih.1
    · rw [Restriction.terminal, hterminal]
      exact ih.2

/-! ### Reading one layer -/

theorem role_eq_ok_iff {name : String} {fault : LoadFault} {p : PropertyId} :
    w.role name fault = .ok p ↔ w.lookup? name = some (.property p) := by
  rw [role]
  split
  · next q hq => simp [hq]
  · next e hne he =>
    rw [he, Option.some.injEq]
    exact iff_of_false LoadFault.raise_ne_ok fun he => hne p he
  · next hnone => simp [hnone, LoadFault.raise]

/-- The vocabulary has one word for each quantifier. -/
theorem lookup?_quantifier (hw : w.NamesMatch) (q : Quantifier) :
    w.lookup? q.name = some (.quantifier q) :=
  lookup?_of_get? (hw.vocabulary _ _ (by cases q <;> decide))

theorem quantifierAfter_eq_ok_iff (hw : w.NamesMatch) {role word : String} {q : Quantifier} :
    w.quantifierAfter role word = .ok q ↔ word = q.name := by
  constructor
  · intro h
    rw [quantifierAfter] at h
    split at h
    · next q' hq' =>
      rw [Except.ok.injEq] at h
      subst h
      exact hw.injective _ _ _ (get?_of_lookup? hq' (by simp))
        (get?_of_lookup? (lookup?_quantifier hw _) (by simp))
    · exact absurd h LoadFault.raise_ne_ok
  · rintro rfl
    rw [quantifierAfter, lookup?_quantifier hw]

/-- `Inverse` is a word of the vocabulary. -/
theorem name_ne_inverse (hw : w.NamesMatch) {name : String} (h : w.lookup? name ≠ some .inverse) :
    name ≠ "Inverse" := by
  rintro rfl
  exact h (lookup?_of_get? (hw.vocabulary _ _ (by decide)))

/-- A role is looked up before anything below it is read. -/
theorem readRestriction_before {role : WrittenRole} (h : role.name ≠ "Inverse") (value : Tree) :
    w.readRestriction (role.before value) =
      (w.role role.name role.fault).bind
        fun p => w.readQuantified role.name (role.expression p) value := by
  rw [WrittenRole.before, WrittenRole.fault]
  unfold WrittenRole.expression
  split
  · rw [readRestriction, if_pos rfl]
    rfl
  · rw [readRestriction.eq_def]
    exact if_neg h

/-- Nothing but a role in front of something is read. -/
theorem exists_before_of_readRestriction {t : Tree} {r : Restriction}
    (h : w.readRestriction t = .ok r) : ∃ (role : WrittenRole) (value : Tree) (p : PropertyId),
      t = role.before value ∧
      w.lookup? role.name = some (.property p) ∧
      w.readQuantified role.name (role.expression p) value = .ok r := by
  rw [readRestriction.eq_def] at h
  split at h
  · next key value =>
    split at h
    · next hkey =>
      subst hkey
      split at h
      · next name inner =>
        obtain ⟨p, hp, hinner⟩ := exists_of_bind_eq_ok h
        exact ⟨⟨name, true⟩, inner, p, rfl, role_eq_ok_iff.mp hp, hinner⟩
      · exact absurd h LoadFault.raise_ne_ok
    · obtain ⟨p, hp, hvalue⟩ := exists_of_bind_eq_ok h
      exact ⟨⟨key, false⟩, value, p, rfl, role_eq_ok_iff.mp hp, hvalue⟩
  · exact absurd h LoadFault.raise_ne_ok

/-- Below a role stands a quantifier with a scalar, or `some` with a further layer. -/
theorem exists_of_readQuantified (hw : w.NamesMatch) {name : String} {e : PropertyExpression}
    {t : Tree} {r : Restriction} (h : w.readQuantified name e t = .ok r) :
    ∃ q target, t = .mapping [(.string q.name, target)] ∧
      ((∃ f, w.ReadsTarget target f ∧ r = ⟨e, q, f⟩) ∨
        q = .some ∧ ∃ s, w.readRestriction target = .ok s ∧
          r = ⟨e, .some, .expression s.toExpression⟩) := by
  rw [readQuantified.eq_def] at h
  split at h
  · next word target =>
    obtain ⟨q, hq, htarget⟩ := exists_of_bind_eq_ok h
    rw [quantifierAfter_eq_ok_iff hw] at hq
    refine ⟨q, target, by rw [hq], ?_⟩
    split at htarget
    · split at htarget
      · obtain ⟨s, hs, hr⟩ := exists_of_bind_eq_ok htarget
        exact .inr ⟨rfl, s, hs, (Except.ok.inj hr).symm⟩
      · exact absurd htarget LoadFault.raise_ne_ok
    · obtain ⟨term, hterm, hfiller⟩ := exists_of_bind_eq_ok htarget
      obtain ⟨f, hf, hr⟩ := exists_of_bind_eq_ok hfiller
      exact .inl ⟨f, ⟨term, hterm, hf⟩, (Except.ok.inj hr).symm⟩
  · split at h <;> exact absurd h LoadFault.raise_ne_ok

theorem readQuantified_of_readsTarget (hw : w.NamesMatch) {name : String} {e : PropertyExpression}
    {q : Quantifier} {target : Tree} {f : Filler} (h : w.ReadsTarget target f) :
    w.readQuantified name e (.mapping [(.string q.name, target)]) = .ok ⟨e, q, f⟩ := by
  obtain ⟨t, ht, hf⟩ := h
  rw [readQuantified, (quantifierAfter_eq_ok_iff hw).mpr rfl]
  cases target with
  | mapping entries => exact absurd ht LoadFault.raise_ne_ok
  | _ => simp only [ht, hf, bind, Except.bind, pure, Except.pure]

/-- Below `some` a further layer is read. -/
theorem readQuantified_before (hw : w.NamesMatch) (name : String) (e : PropertyExpression)
    (role : WrittenRole) (value : Tree) :
    w.readQuantified name e (.mapping [(.string Quantifier.some.name, role.before value)]) =
      (w.readRestriction (role.before value)).bind
        fun s => .ok ⟨e, .some, .expression s.toExpression⟩ := by
  obtain ⟨entries, hentries⟩ := role.exists_before_eq value
  rw [hentries, readQuantified, (quantifierAfter_eq_ok_iff hw).mpr rfl]
  rfl

theorem readRestriction_of_readsRole (hw : w.NamesMatch) {role : WrittenRole}
    {e : PropertyExpression} (h : w.ReadsRole role e) (value : Tree) :
    w.readRestriction (role.before value) = w.readQuantified role.name e value := by
  have hname : role.name ≠ "Inverse" := name_ne_inverse hw (by rw [h.1]; simp)
  rw [readRestriction_before hname, role_eq_ok_iff.mpr h.1, Except.bind,
    WrittenRole.expression_eq h.2]

/-! ### Reading all layers -/

theorem exists_before_eq_tree (n : WrittenRestriction) :
    ∃ (role : WrittenRole) (value : Tree), n.tree = role.before value := by
  cases n <;> exact ⟨_, _, rfl⟩

theorem Reads.readRestriction (hw : w.NamesMatch) {n : WrittenRestriction} {r : Restriction}
    (h : w.Reads n r) : w.readRestriction n.tree = .ok r := by
  induction h with
  | innermost hrole htarget =>
    rw [WrittenRestriction.tree, WrittenRole.layer, readRestriction_of_readsRole hw hrole,
      readQuantified_of_readsTarget hw htarget]
  | @outer role e inner r hrole _ ih =>
    obtain ⟨role', value, hinner⟩ := exists_before_eq_tree inner
    rw [hinner] at ih
    rw [WrittenRestriction.tree, WrittenRole.layer, readRestriction_of_readsRole hw hrole, hinner,
      readQuantified_before hw, ih]
    rfl

/-- What is read is made of layers. -/
theorem exists_reads_of_readRestriction (hw : w.NamesMatch) {t : Tree} {r : Restriction}
    (h : w.readRestriction t = .ok r) : ∃ n : WrittenRestriction, n.tree = t ∧ w.Reads n r := by
  -- each layer of the text becomes one of the restriction
  induction hdepth : r.depth generalizing t r with
  | zero => simp [Restriction.depth, Restriction.chain] at hdepth
  | succ depth ih =>
    obtain ⟨role, value, p, rfl, hp, hvalue⟩ := exists_before_of_readRestriction h
    have hrole : w.ReadsRole role (role.expression p) :=
      ⟨by rw [role.property_expression]; exact hp, role.isInverse_expression p⟩
    obtain ⟨q, target, rfl, ⟨f, hf, rfl⟩ | ⟨rfl, s, hs, rfl⟩⟩ :=
      exists_of_readQuantified hw hvalue
    · exact ⟨.innermost role q target, rfl, .innermost hrole hf⟩
    · obtain ⟨n, rfl, hn⟩ := ih hs (by simpa [Restriction.depth, Restriction.chain,
        Restriction.toExpression, Filler.layers, ClassExpression.layers] using hdepth)
      exact ⟨.outer role n, rfl, .outer hrole hn⟩

/-- **A tree is read as a restriction if and only if it consists of layers that stand for it.** -/
theorem readRestriction_eq_ok_iff (hw : w.NamesMatch) {t : Tree} {r : Restriction} :
    w.readRestriction t = .ok r ↔ ∃ n : WrittenRestriction, n.tree = t ∧ w.Reads n r := by
  constructor
  · exact exists_reads_of_readRestriction hw
  · rintro ⟨n, rfl, hn⟩
    exact hn.readRestriction hw

/-- An undeclared role is what the error is about, however many layers stand around it. -/
theorem readRestriction_unknown (hw : w.NamesMatch) {roles : List WrittenRole}
    (hroles : ∀ r ∈ roles, ∃ p, w.lookup? r.name = some (.property p)) {role : WrittenRole}
    (hrole : w.lookup? role.name = none) (value : Tree) :
    w.readRestriction (roles.foldr (fun r inner => r.layer .some inner) (role.before value)) =
      (LoadFault.badName (.unknown role.name)).raise := by
  induction roles with
  | nil =>
    have hname : role.name ≠ "Inverse" := name_ne_inverse hw (by rw [hrole]; simp)
    rw [List.foldr_nil, readRestriction_before hname, World.role, hrole]
    rfl
  | cons r rest ih =>
    obtain ⟨p, hp⟩ := hroles r List.mem_cons_self
    have hr : w.ReadsRole r (r.expression p) :=
      ⟨by rw [r.property_expression]; exact hp, r.isInverse_expression p⟩
    have hrest := ih fun r' hr' => hroles r' (List.mem_cons_of_mem _ hr')
    have hinner : ∃ (role' : WrittenRole) (value' : Tree),
        rest.foldr (fun r inner => r.layer .some inner) (role.before value) =
          role'.before value' := by
      cases rest <;> exact ⟨_, _, rfl⟩
    obtain ⟨role', value', hinner⟩ := hinner
    rw [hinner] at hrest
    rw [List.foldr_cons, hinner, WrittenRole.layer, readRestriction_of_readsRole hw hr,
      readQuantified_before hw, hrest]
    rfl

end World

/-! ### Writing -/

/-- A literal as a scalar that is read as this literal: a text stands between quotes. -/
def Literal.written : Literal → Tree
  | .int n => .int n
  | .float x => .float x
  | .text s => .string ("\"" ++ s ++ "\"")
  | .bool b => .bool b

namespace World

/-- All names that stand for something, with those of the classes of imports. -/
def knownNames (w : World) : List String :=
  w.names.names.map Prod.fst ++ w.names.qualifiers.flatMap fun (qualifier, place) =>
    ((w.imports[place]?).elim [] Import.classes).map fun entry => qualifier ++ entry.1

/-- A name for a property in front of a quantifier. -/
def roleName? (w : World) (p : PropertyId) : Option String :=
  w.knownNames.find? fun name => w.lookup? name = some (.property p)

/-- A name for a target, which must not be taken for a quoted text. -/
def targetName? (w : World) (e : Entity) : Option String :=
  w.knownNames.find? fun name => quotedPart? name = none ∧ w.lookup? name = some e

end World

mutual

/-- An expression in the notation of restrictions. -/
def ClassExpression.written? (w : World) : ClassExpression → Option Tree
  | .restriction property quantifier filler => do
    let name ← w.roleName? property.property
    let target ← filler.written? w
    return (⟨name, property.isInverse⟩ : WrittenRole).layer quantifier target
  | .thing => (w.targetName? .thing).map .string
  | .nothing => (w.targetName? .nothing).map .string
  | .named c => (w.targetName? (.class c)).map .string
  | .and _ | .or _ | .not _ | .oneOf _ => none
termination_by structural e => e

/-- What a restriction asks for in the notation of restrictions. -/
def Filler.written? (w : World) : Filler → Option Tree
  | .expression e => e.written? w
  | .individual i => (w.targetName? (.individual i)).map .string
  | .literal l => some l.written
  | .datatype d => (w.targetName? (.datatype d)).map .string
termination_by structural f => f

end

/-- A restriction in the notation of restrictions. -/
def Restriction.written? (w : World) (r : Restriction) : Option Tree :=
  r.toExpression.written? w

theorem quotedPart?_quoted (s : String) : quotedPart? ("\"" ++ s ++ "\"") = some s := by
  have htoList : ("\"" ++ s ++ "\"").toList = '"' :: (s.toList ++ ['"']) := by simp
  rw [quotedPart?, htoList]
  simp

namespace World

variable {w : World}

/-- Every name that stands for something is found. -/
theorem mem_knownNames {name : String} {e : Entity} (h : w.lookup? name = some e) :
    name ∈ w.knownNames := by
  rw [knownNames, List.mem_append]
  rw [lookup?] at h
  split at h
  · next e' he' =>
    obtain ⟨before, behind, heq, -⟩ := List.lookup_eq_some_iff.mp he'
    rw [heq]
    simp
  · right
    simp only [Option.bind_eq_bind, Option.bind_eq_some_iff, Option.map_eq_some_iff] at h
    obtain ⟨⟨place, localName⟩, hsplit, i, hi, c, hc, -⟩ := h
    rw [Namespace.splitQualified?] at hsplit
    split at hsplit
    · obtain ⟨⟨qualifier, place'⟩, hmem, hprefix⟩ := List.exists_of_findSome?_eq_some hsplit
      dsimp only at hprefix
      split at hprefix
      · next hname =>
        obtain ⟨rfl, rfl⟩ := Prod.mk.inj (Option.some.inj hprefix)
        obtain ⟨before, behind, heq, -⟩ := List.lookup_eq_some_iff.mp hc
        refine List.mem_flatMap.mpr ⟨_, hmem, List.mem_map.mpr
          ⟨(String.ofList (name.toList.drop qualifier.toList.length), c), ?_, ?_⟩⟩
        · rw [hi, Option.elim_some, heq]
          simp
        · -- the qualifier with what stands behind it is the whole name
          obtain ⟨rest, hrest⟩ := List.isPrefixOf_iff_prefix.mp hname
          rw [← String.toList_inj, String.toList_append, String.toList_ofList, ← hrest,
            List.drop_left]
      · cases hprefix
    · cases hsplit

/-- A name that is written for a property is read as this property. -/
theorem exists_roleName? {name : String} {p : PropertyId}
    (h : w.lookup? name = some (.property p)) :
    ∃ found, w.roleName? p = some found ∧ w.lookup? found = some (.property p) := by
  have hsome : (w.roleName? p).isSome = true :=
    List.find?_isSome.mpr ⟨name, mem_knownNames h, by simpa using h⟩
  obtain ⟨found, hfound⟩ := Option.isSome_iff_exists.mp hsome
  exact ⟨found, hfound, by simpa using List.find?_some hfound⟩

/-- A name that is written for a target is read as this target. -/
theorem exists_targetName? {name : String} {e : Entity} (hquoted : quotedPart? name = none)
    (h : w.lookup? name = some e) :
    ∃ found, w.targetName? e = some found ∧
      w.resolve true (.string found) = .ok (.entity found e) := by
  have hsome : (w.targetName? e).isSome = true :=
    List.find?_isSome.mpr ⟨name, mem_knownNames h, by simpa using ⟨hquoted, h⟩⟩
  obtain ⟨found, hfound⟩ := Option.isSome_iff_exists.mp hsome
  have htest : quotedPart? found = none ∧ w.lookup? found = some e := by
    simpa using List.find?_some hfound
  exact ⟨found, hfound, by rw [resolve, resolveName, htest.1, htest.2]⟩

theorem readsTarget_written_text (s : String) :
    w.ReadsTarget (Literal.text s).written (.literal (.text s)) := by
  refine ⟨.literal (.text s), ?_, rfl⟩
  rw [Literal.written, resolve, resolveName, quotedPart?_quoted]

/-- The target of an entity can be written and read again. -/
theorem exists_written_of_entity {name : String} {e : Entity} {f : Filler}
    (hquoted : quotedPart? name = none) (h : w.lookup? name = some e)
    (hf : (Term.entity name e).toFiller = .ok f) :
    ∃ target, f.written? w = some target ∧ w.ReadsTarget target f := by
  obtain ⟨found, hfound, hread⟩ := exists_targetName? hquoted h
  cases e with
  | individual _ | «class» _ | thing | nothing | datatype _ =>
    obtain rfl := Except.ok.inj hf
    refine ⟨.string found, ?_, _, hread, rfl⟩
    simp only [Filler.written?, ClassExpression.written?, hfound, Option.map_some]
  | _ => exact absurd hf LoadFault.raise_ne_ok

/-- A target that has been read can be written and read again. -/
theorem ReadsTarget.written {target : Tree} {f : Filler} (h : w.ReadsTarget target f) :
    ∃ target', f.written? w = some target' ∧ w.ReadsTarget target' f := by
  obtain ⟨t, ht, hf⟩ := h
  cases target with
  | string text =>
    rw [resolve, resolveName] at ht
    split at ht
    · obtain rfl := Except.ok.inj ht
      obtain rfl := Except.ok.inj hf
      exact ⟨_, rfl, readsTarget_written_text _⟩
    · next hquoted =>
      split at ht
      · next e he =>
        obtain rfl := Except.ok.inj ht
        exact exists_written_of_entity hquoted he hf
      · obtain rfl := Except.ok.inj ht
        obtain rfl := Except.ok.inj hf
        exact ⟨_, rfl, readsTarget_written_text _⟩
  | bool b =>
    obtain rfl := Except.ok.inj ht
    obtain rfl := Except.ok.inj hf
    exact ⟨_, rfl, _, rfl, rfl⟩
  | float x =>
    obtain rfl := Except.ok.inj ht
    obtain rfl := Except.ok.inj hf
    exact ⟨_, rfl, _, rfl, rfl⟩
  | int n =>
    rw [resolve] at ht
    split at ht
    · next hsmall =>
      obtain rfl := Except.ok.inj ht
      obtain rfl := Except.ok.inj hf
      exact ⟨_, rfl, .literal (.int n), by rw [Literal.written, resolve, if_pos hsmall], rfl⟩
    · -- a number of more than 63 bits has become a double
      obtain rfl := Except.ok.inj ht
      obtain rfl := Except.ok.inj hf
      exact ⟨_, rfl, _, rfl, rfl⟩
  | null | sequence _ | mapping _ | tagged _ _ => exact absurd ht LoadFault.raise_ne_ok

/-- **What has been read can be written and read again.** -/
theorem Reads.written (hw : w.NamesMatch) {n : WrittenRestriction} {r : Restriction}
    (h : w.Reads n r) : ∃ t, r.written? w = some t ∧ w.readRestriction t = .ok r := by
  suffices hlayers : ∃ n' : WrittenRestriction, r.written? w = some n'.tree ∧ w.Reads n' r by
    obtain ⟨n', hn', hreads⟩ := hlayers
    exact ⟨_, hn', hreads.readRestriction hw⟩
  induction h with
  | @innermost role e q target f hrole htarget =>
    obtain ⟨name, hname, hlookup⟩ := exists_roleName? hrole.1
    obtain ⟨target', hwritten, hread⟩ := htarget.written
    refine ⟨.innermost ⟨name, e.isInverse⟩ q target', ?_, .innermost ⟨hlookup, rfl⟩ hread⟩
    rw [Restriction.written?, Restriction.toExpression, ClassExpression.written?, hname, hwritten]
    rfl
  | @outer role e inner r hrole _ ih =>
    obtain ⟨name, hname, hlookup⟩ := exists_roleName? hrole.1
    obtain ⟨n', hwritten, hread⟩ := ih
    refine ⟨.outer ⟨name, e.isInverse⟩ n', ?_, .outer ⟨hlookup, rfl⟩ hread⟩
    rw [Restriction.written?] at hwritten
    rw [Restriction.written?, Restriction.toExpression, ClassExpression.written?, Filler.written?,
      hname, hwritten]
    rfl

/-! ### The notation as a whole -/

/-- **Restrictions are read as they are written, at every depth.**  A tree is read if and only if it
consists of layers whose roles are properties, with a scalar behind them that can be the target of
a restriction.  The layers and the terminal of the result are those of the tree, and the result can
be written and read again.  If the outermost layers are roles of properties and the next role is not
declared, the error names this role. -/
theorem readRestriction_exact (hw : w.NamesMatch) (t : Tree) :
    ((∃ r, w.readRestriction t = .ok r) ↔
      ∃ n : WrittenRestriction, n.tree = t ∧ w.Understands n) ∧
    (∀ n r, n.tree = t → w.Understands n → w.readRestriction t = .ok r →
      List.Forall₂ (fun l c => w.ReadsRole l.1 c.1 ∧ c.2 = l.2) n.layers r.chain ∧
      r.depth = n.layers.length ∧ w.ReadsTarget n.target r.terminal ∧
      ∃ t', r.written? w = some t' ∧ w.readRestriction t' = .ok r) ∧
    (∀ (roles : List WrittenRole) (role : WrittenRole) (value : Tree),
      (∀ r ∈ roles, ∃ p, w.lookup? r.name = some (.property p)) → w.lookup? role.name = none →
      t = roles.foldr (fun r inner => r.layer .some inner) (role.before value) →
      w.readRestriction t = .error (LoadFault.badName (.unknown role.name))) := by
  refine ⟨⟨?_, ?_⟩, ?_, ?_⟩
  · rintro ⟨r, hr⟩
    obtain ⟨n, hn, hreads⟩ := (readRestriction_eq_ok_iff hw).mp hr
    exact ⟨n, hn, hreads.understands⟩
  · rintro ⟨n, rfl, hn⟩
    obtain ⟨r, hr⟩ := exists_reads_of_understands hn
    exact ⟨r, hr.readRestriction hw⟩
  · rintro n r rfl hn hr
    obtain ⟨r', hr'⟩ := exists_reads_of_understands hn
    obtain rfl : r' = r := Except.ok.inj ((hr'.readRestriction hw).symm.trans hr)
    obtain ⟨hchain, hterminal⟩ := hr'.chain
    exact ⟨hchain, hchain.length_eq.symm, hterminal, hr'.written hw⟩
  · rintro roles role value hroles hrole rfl
    exact readRestriction_unknown hw hroles hrole value

/-! ### A street -/

/-- People live in houses, and houses have colours. -/
def streetDocument : Tree :=
  .sequence [
    .object [("owl_object_property", .object [("lives_in", .object [
      ("Domain", .string "owl:Thing"), ("Range", .string "owl:Thing")])])],
    .object [("owl_object_property", .object [("has_color", .object [
      ("Domain", .string "owl:Thing"), ("Range", .string "owl:Thing")])])],
    .object [("owl_individual", .object [("red", .object [
      ("types", .sequence [.string "owl:Thing"])])])]]

/-- The ontology of the document. -/
def street : World :=
  (load {} {} "" streetDocument).toOption.getD default

theorem load_streetDocument : load {} {} "" streetDocument = .ok street :=
  eq_ok_of_isSome (by decide +kernel)

/-- The places where those live whose house is red. -/
def redHomes : WrittenRestriction :=
  .outer ⟨"lives_in", true⟩ (.innermost ⟨"has_color", false⟩ .value (.string "red"))

/-- The two layers are read, and an unknown role below the first one is reported. -/
theorem readRestriction_exact_street :
    load {} {} "" streetDocument = .ok street ∧
    redHomes.tree = .object [("Inverse", .object [("lives_in", .object [
      ("some", .object [("has_color", .object [("value", .string "red")])])])])] ∧
    (∃ r, street.readRestriction redHomes.tree = .ok r ∧ r.depth = 2 ∧
      street.ReadsTarget (.string "red") r.terminal ∧
      ∃ t, r.written? street = some t ∧ street.readRestriction t = .ok r) ∧
    street.readRestriction (.object [("lives_in", .object [("some", .object [
        ("paints", .object [("value", .string "red")])])])])
      = .error (LoadFault.badName (.unknown "paints")) := by
  have hw : street.NamesMatch := (IsLoaded.isGrounded ⟨_, _, _, _, load_streetDocument⟩).names
  have hlookup : street.lookup? "lives_in" = some (.property ⟨0⟩) ∧
      street.lookup? "has_color" = some (.property ⟨1⟩) ∧
      street.lookup? "red" = some (.individual ⟨0⟩) ∧ street.lookup? "paints" = none := by
    decide +kernel
  obtain ⟨hlives, hcolor, hred, hpaints⟩ := hlookup
  have hunderstands : street.Understands redHomes := by
    refine ⟨fun l hl => ?_, .entity "red" (.individual ⟨0⟩), ?_, trivial⟩
    · rcases List.mem_pair.mp hl with rfl | rfl
      · exact ⟨_, hlives⟩
      · exact ⟨_, hcolor⟩
    · have hquoted : quotedPart? "red" = none := by decide
      simp only [redHomes, WrittenRestriction.target, resolve, resolveName, hquoted, hred]
  obtain ⟨hread, hexact, -⟩ := readRestriction_exact hw redHomes.tree
  obtain ⟨r, hr⟩ := hread.mpr ⟨redHomes, rfl, hunderstands⟩
  obtain ⟨-, hdepth, hterminal, hwritten⟩ := hexact redHomes r rfl hunderstands hr
  refine ⟨load_streetDocument, rfl, ⟨r, hr, hdepth, hterminal, hwritten⟩, ?_⟩
  exact (readRestriction_exact hw _).2.2 [⟨"lives_in", false⟩] ⟨"paints", false⟩ _
    (fun r hr => ⟨⟨0⟩, by rw [List.mem_singleton.mp hr]; exact hlives⟩) hpaints rfl

end World

end Ontology
