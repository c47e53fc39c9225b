import Ontology.Proofs.Steps

/-!
# Statements in steps

Each function that loading is made of is a sequence of steps.  What it is given has been read from
the document, so it is known by then, and what is known stays known while the steps before it are
taken.

## Main definitions

* `Tree.relationNames`, `Tree.entryNames` — the names that entries about relations come with, in a
  statement of such facts and in a document.
* `World.restriction?` — the subject and the restriction of a statement that adds one.

## Main results

* `LoadSession.leadsTo_perform` — **every statement is a sequence of steps.**
* `LoadSession.leadsTo_load`, `World.leadsTo_of_load` — so are lists of statements and documents.
-/

namespace Ontology

/-! ### Names of entries -/

/-- The entries of a mapping; nothing else has any. -/
def Tree.entries : Tree → List (Tree × Tree)
  | .mapping entries => entries
  | _ => []

/-- The pairs of a subject and a main role that a statement of facts about relations names. -/
def Tree.relationNames : Tree → List (String × String)
  | .mapping subjects => subjects.flatMap fun
    | (.string subject, .mapping roles) => roles.filterMap fun
      | (.string role, _) => some (subject, role)
      | _ => none
    | _ => []
  | _ => []

/-- The pairs of a subject and a main role that the entries of a document come with. -/
def Tree.entryNames (document : Tree) : List (String × String) :=
  match Shape.statements document with
  | .ok statements => statements.flatMap fun (keyword, body) =>
    if keyword = Statement.relationFacts.keyword then body.relationNames else []
  | .error _ => []

namespace Shape

theorem asMapping_eq_ok {context : String} {t : Tree} {entries : List (Tree × Tree)}
    (h : asMapping context t = .ok entries) : t = .mapping entries := by
  cases t with
  | mapping entries' => rw [Except.ok.inj h]
  | _ => simp [asMapping] at h

theorem eq_some_of_elim_eq_ok {α : Type} {o : Option α} {fault : LoadFault} {a : α}
    (h : o.elim fault.raise .ok = Except.ok a) : o = some a := by
  cases o with
  | none => exact absurd h LoadFault.raise_ne_ok
  | some b => rw [← Except.ok.inj h]

theorem single_eq_ok_iff {t inner : Tree} {name : String} :
    single t = .ok (name, inner) ↔ t = .mapping [(.string name, inner)] := by
  constructor
  · intro h
    unfold single at h
    split at h
    · obtain ⟨rfl, rfl⟩ := Prod.mk.inj (Except.ok.inj h)
      rfl
    · cases h
  · rintro rfl
    rfl

theorem entries_of_declarationBody {context : String} {t : Tree} {entries : List (Tree × Tree)}
    (h : declarationBody context t = .ok entries) : t.entries = entries := by
  cases t with
  | null => exact Except.ok.inj h
  | mapping entries' => exact Except.ok.inj h
  | _ => cases h

/-- Entries are read if all their keys are strings. -/
theorem stringEntries_eq_ok_iff {entries : List (Tree × Tree)}
    {named : List (String × Tree)} : stringEntries entries = .ok named ↔
      entries = named.map fun row => (.string row.1, row.2) := by
  induction entries generalizing named with
  | nil =>
    constructor
    · intro h
      rw [← Except.ok.inj h]
      rfl
    · intro h
      rw [List.map_eq_nil_iff.mp h.symm]
      rfl
  | cons entry rest ih =>
    obtain ⟨key, value⟩ := entry
    rw [stringEntries, mapM_cons_eq_ok_iff]
    constructor
    · rintro ⟨row, rows, hrow, hrows, rfl⟩
      obtain ⟨text, htext, hrow⟩ := exists_of_bind_eq_ok hrow
      rw [← Except.ok.inj hrow, ih.mp hrows]
      cases key with
      | string name =>
        rw [← Except.ok.inj htext]
        rfl
      | _ => cases htext
    · intro h
      obtain ⟨row, rows, rfl, hrow, hrows⟩ := List.map_eq_cons_iff.mp h.symm
      obtain ⟨rfl, rfl⟩ := Prod.mk.inj hrow
      exact ⟨row, rows, rfl, ih.mpr hrows.symm, rfl⟩

theorem mem_of_stringEntries {entries : List (Tree × Tree)} {named : List (String × Tree)}
    (h : stringEntries entries = .ok named) {key : String} {value : Tree}
    (hmem : (key, value) ∈ named) : (.string key, value) ∈ entries := by
  rw [stringEntries_eq_ok_iff.mp h]
  exact List.mem_map.mpr ⟨_, hmem, rfl⟩

end Shape

namespace World

variable {w w' : World}

/-- The entity of a text is what its name stands for. -/
theorem lookup?_of_resolveName {lenient : Bool} {text : String} {t : Term} {e : Entity}
    (h : w.resolveName lenient text = .ok t) (he : t.entity? = some e) :
    w.lookup? text = some e := by
  rw [resolveName] at h
  split at h
  · rw [← Except.ok.inj h] at he
    cases he
  split at h
  · next e' he' =>
    rw [← Except.ok.inj h] at he
    rw [he', ← he]
    rfl
  split at h
  · rw [← Except.ok.inj h] at he
    cases he
  · simp at h

/-- Imports make names for classes only. -/
theorem get?_of_lookup? {name : String} {e : Entity} (h : w.lookup? name = some e)
    (he : ∀ c, e ≠ .class c) : w.names.get? name = some e := by
  rw [lookup?] at h
  split at h
  · next e' he' => rw [he', h]
  · simp only [Option.bind_eq_bind, Option.bind_eq_some_iff, Option.map_eq_some_iff] at h
    obtain ⟨_, -, _, -, c, -, rfl⟩ := h
    exact absurd rfl (he c)

theorem lookup?_of_get? {name : String} {e : Entity} (h : w.names.get? name = some e) :
    w.lookup? name = some e := by
  rw [lookup?, h]

theorem individualNamed?_eq_some_iff {name : String} {i : IndividualId} :
    w.individualNamed? name = some i ↔ w.names.get? name = some (.individual i) := by
  rw [individualNamed?]
  constructor
  · intro h
    split at h
    · next j hj => exact get?_of_lookup? (Option.some.inj h ▸ hj) (by simp)
    · cases h
  · intro h
    rw [lookup?_of_get? h]

theorem propertyNamed?_eq_some_iff {name : String} {p : PropertyId} :
    w.propertyNamed? name = some p ↔ w.names.get? name = some (.property p) := by
  rw [propertyNamed?]
  constructor
  · intro h
    split at h
    · next q hq => exact get?_of_lookup? (Option.some.inj h ▸ hq) (by simp)
    · cases h
  · intro h
    rw [lookup?_of_get? h]

theorem knows_of_individualNamed? {name : String} {i : IndividualId}
    (h : w.individualNamed? name = some i) : w.Knows (.individual i) :=
  .inr (.inl (.inl ⟨name, individualNamed?_eq_some_iff.mp h⟩))

theorem knows_of_propertyNamed? {name : String} {p : PropertyId}
    (h : w.propertyNamed? name = some p) : w.Knows (.property p) :=
  .inr (.inl (.inl ⟨name, propertyNamed?_eq_some_iff.mp h⟩))

theorem IsExtendedBy.individualNamed? (h : w.IsExtendedBy w') {name : String} {i : IndividualId}
    (hi : w.individualNamed? name = some i) : w'.individualNamed? name = some i := by
  rw [individualNamed?_eq_some_iff] at hi ⊢
  exact h.names _ _ hi

theorem IsExtendedBy.propertyNamed? (h : w.IsExtendedBy w') {name : String} {p : PropertyId}
    (hp : w.propertyNamed? name = some p) : w'.propertyNamed? name = some p := by
  rw [propertyNamed?_eq_some_iff] at hp ⊢
  exact h.names _ _ hp

/-- Names keep what they stand for. -/
theorem IsNamedIn.mono {names : List (String × String)} {i : IndividualId} {p : PropertyId}
    (h : w.IsNamedIn names i p) (hw : w.IsExtendedBy w') : w'.IsNamedIn names i p := by
  obtain ⟨subject, role, hmem, hsubject, hrole⟩ := h
  exact ⟨subject, role, hmem, hw.individualNamed? hsubject, hw.propertyNamed? hrole⟩

/-- A term is read as a value that the property takes. -/
theorem takes_of_valueOf {p : PropertyId} {t : Term} {v : Value} (h : w.valueOf p t = .ok v) :
    w.Takes p v := by
  rw [valueOf] at h
  split at h
  · next hkind =>
    rw [Takes, hkind]
    rw [objectValue.eq_def] at h
    split at h
    · cases h; exact .inl ⟨_, rfl⟩
    · cases h; exact .inr (.inl ⟨_, rfl⟩)
    · cases h; exact .inr (.inr (.inl rfl))
    · cases h; exact .inr (.inr (.inr rfl))
    · simp at h
    · simp at h
  · next hkind =>
    rw [Takes, hkind]
    obtain ⟨l, -, h⟩ := exists_of_bind_eq_ok h
    split at h
    · next haccepts => exact ⟨l, (Except.ok.inj h).symm, haccepts⟩
    · simp at h

/-- A property refers to the class that its range begins with. -/
theorem mem_references_of_rangeClasses {p : Property} {c : ClassId}
    (h : p.rangeClasses.head? = some (.named c)) : .class c ∈ p.references := by
  rw [Property.rangeClasses] at h
  split at h
  · next classes hrange =>
    have hmem : ClassExpression.named c ∈ classes := List.mem_of_mem_head? h
    rw [Property.references, hrange, List.mem_append, List.mem_append]
    exact .inl (.inr (List.mem_flatMap.mpr ⟨_, hmem, List.mem_singleton_self _⟩))
  · cases h

/-- A property whose range begins with a class is there. -/
theorem has_property_of_rangeClasses {p : PropertyId} {c : ClassId}
    (h : (w.getProperty p).rangeClasses.head? = some (.named c)) : w.Has (.property p) :=
  has_property_iff.mpr ⟨_, property?_of_mem_references (mem_references_of_rangeClasses h)⟩

/-- The class that a range begins with is known with the property. -/
theorem knows_of_rangeClasses {p : PropertyId} {c : ClassId}
    (h : (w.getProperty p).rangeClasses.head? = some (.named c)) : w.Knows (.class c) :=
  .inr (.inr ⟨p, mem_references_of_rangeClasses h⟩)

/-- The subject and the restriction of a statement that adds one. -/
def restriction? (w : World) (t : Tree) : Option (Entity × Restriction) := do
  let name ← (Tree.lookup? t.entries "Subject").bind Tree.text?
  let body ← Tree.lookup? t.entries "Body"
  return (← w.lookup? name, ← (w.readRestriction body).toOption)

end World

namespace LoadSession

open World

variable {names : List (String × String)} {s s' : LoadSession}

/-! ### Entities -/

theorem ok_of_ofNames {α : Type} {x : Except NameError α} {a : α}
    (h : Loading.ofNames x = .ok a) : x = .ok a := by
  cases x with
  | error e => simp [Loading.ofNames] at h
  | ok b => rw [← Except.ok.inj h]

theorem map_of_ofNames {α β : Type} {x : Except NameError α} {a : α} {f : α → β}
    (h : Loading.ofNames x = .ok a) : x.map f = .ok (f a) := by
  rw [ok_of_ofNames h, Except.map]

theorem individualNamed?_of_individual {name : String} {i : IndividualId}
    (h : s.individual name = .ok i) : s.world.individualNamed? name = some i := by
  obtain ⟨e, he, h⟩ := exists_of_bind_eq_ok h
  obtain ⟨t, ht, he⟩ := exists_of_bind_eq_ok he
  split at h
  · split at he
    · cases he
      cases h
      rw [individualNamed?, lookup?_of_resolveName ht rfl]
    · simp at he
  · simp at h

theorem propertyNamed?_of_property {name : String} {p : PropertyId}
    (h : s.property name = .ok p) : s.world.propertyNamed? name = some p := by
  obtain ⟨e, he, h⟩ := exists_of_bind_eq_ok h
  obtain ⟨t, ht, he⟩ := exists_of_bind_eq_ok he
  split at h
  · split at he
    · cases he
      cases h
      rw [propertyNamed?, lookup?_of_resolveName ht rfl]
    · simp at he
  · simp at h

theorem leadsTo_add {a : Addition} {world : World} {e : Entity} (ha : s.Admits a)
    (h : a.perform s.world = .ok (world, some e)) :
    s.LeadsTo names { s with world } ∧ world.HasEntry e :=
  ⟨.single (.add ha h), (hasEntry_of_perform h).1⟩

theorem leadsTo_addClass {c : Class} {id : ClassId} (hc : ∀ r ∈ c.references, s.world.Knows r)
    (h : s.addClass c = .ok (s', id)) : s.LeadsTo names s' ∧ s'.world.Has (.class id) := by
  obtain ⟨⟨world, id⟩, hadd, h⟩ := exists_of_bind_eq_ok h
  obtain ⟨rfl, rfl⟩ := Prod.mk.inj (Except.ok.inj h)
  exact leadsTo_add (a := .class c) ⟨fun r hr => .inl (hc r hr), by simp, by simp, by simp, by simp⟩
    (map_of_ofNames hadd)

theorem leadsTo_addProperty {p : Property} {id : PropertyId} (hp : ∀ r ∈ p.references, s.Knows r)
    (htyped : p.IsTyped)
    (hinverse : ∀ q, p.inverseOf = some q → ∃ name, s.world.lookup? name = some (.property q))
    (hends : s.world.HasPlainEnds p) (h : s.addProperty p = .ok (s', id)) :
    s.LeadsTo names s' ∧ s'.world.Has (.property id) := by
  obtain ⟨⟨world, id⟩, hadd, h⟩ := exists_of_bind_eq_ok h
  obtain ⟨rfl, rfl⟩ := Prod.mk.inj (Except.ok.inj h)
  refine leadsTo_add (a := .property p) ⟨hp, ?_, ?_, ?_, by simp⟩ (map_of_ofNames hadd)
  · rintro _ ⟨⟩
    exact htyped
  · rintro _ q ⟨⟩ hq
    exact hinverse q hq
  · rintro _ ⟨⟩
    exact hends

theorem perform_of_addIndividual {name : String} {type : ClassExpression} {id : IndividualId}
    (h : s.addIndividual name type = .ok (s', id)) :
    (Addition.individual name type).perform s.world = .ok (s'.world, some (.individual id)) ∧
      s' = { s with world := s'.world } := by
  obtain ⟨⟨world, id⟩, hadd, h⟩ := exists_of_bind_eq_ok h
  obtain ⟨rfl, rfl⟩ := Prod.mk.inj (Except.ok.inj h)
  exact ⟨map_of_ofNames hadd, rfl⟩

theorem leadsTo_addIndividual {name : String} {type : ClassExpression} {id : IndividualId}
    (htype : ∀ r ∈ type.references, s.world.Knows r)
    (h : s.addIndividual name type = .ok (s', id)) :
    s.LeadsTo names s' ∧ s'.world.Has (.individual id) := by
  obtain ⟨hperform, hs'⟩ := perform_of_addIndividual h
  rw [hs']
  refine leadsTo_add ⟨?_, by simp, by simp, by simp, by simp⟩ hperform
  exact fun r hr => .inl (htype r hr)

/-! ### Facts -/

theorem leadsTo_pushFacts {subject : IndividualId} {p : PropertyId}
    (hsubject : s.world.Knows (.individual subject)) (hp : s.world.Knows (.property p))
    (hfunctional : (s.world.getProperty p).characteristics.functional = false) {vs : List Value}
    (hvs : ∀ v ∈ vs, s.world.Takes p v ∧ ∀ r ∈ v.references, s.world.Knows r) :
    s.LeadsTo names
      { s with world := vs.foldl (fun w v => w.pushFact subject p v) s.world } := by
  induction vs generalizing s with
  | nil => exact .refl
  | cons v rest ih =>
    obtain ⟨htakes, hv⟩ := hvs v List.mem_cons_self
    have hstep : s.Step names { s with world := s.world.write (.append subject p v) } := by
      exact .write ⟨hfunctional, htakes⟩ (Write.forall_mem_references.mpr ⟨hsubject, hp, hv⟩)
        (by simp)
    have hkeep := hstep.isExtendedBy
    -- a value leaves the properties as they are
    exact .head hstep (ih (s := { s with world := s.world.write (.append subject p v) })
      (hkeep.knows hsubject) (hkeep.knows hp) hfunctional fun u hu =>
        ⟨(hvs u (List.mem_cons_of_mem _ hu)).1,
          fun r hr => hkeep.knows ((hvs u (List.mem_cons_of_mem _ hu)).2 r hr)⟩)

theorem leadsTo_applyFact {p : PropertyId} {subject : IndividualId} {value : PairValue}
    (hp : s.world.Knows (.property p)) (hsubject : s.world.Knows (.individual subject))
    (hvalue : ∀ t ∈ value.terms, ∀ r ∈ t.references, s.world.Knows r)
    (h : s.applyFact p subject value = .ok s') : s.LeadsTo names s' := by
  obtain ⟨vs, hread, h⟩ := exists_of_bind_eq_ok h
  have hvs : ∀ v ∈ vs, s.world.Takes p v ∧ ∀ r ∈ v.references, s.world.Knows r := by
    intro v hv
    obtain ⟨t, ht, hv⟩ := exists_of_forall₂_right (mapM_eq_ok hread) hv
    exact ⟨takes_of_valueOf hv, fun r hr => hvalue t ht r (references_of_valueOf hv hr)⟩
  split at h
  · next hfunctional =>
    split at h
    · next _ v _ =>
      obtain ⟨htakes, hv⟩ := hvs v (List.mem_singleton_self v)
      rw [← Except.ok.inj h]
      exact .single (.write (x := .assign subject p v) ⟨hfunctional, htakes⟩
        (Write.forall_mem_references.mpr ⟨hsubject, hp, hv⟩) (by simp))
    · simp at h
  · next hfunctional =>
    rw [← Except.ok.inj h]
    exact leadsTo_pushFacts hsubject hp (by simpa using hfunctional) hvs

theorem leadsTo_applyPairs {p : PropertyId} {n : Node} (hp : s.world.Knows (.property p))
    (hn : ∀ r ∈ n.references, s.world.Knows r) (h : s.applyPairs p n = .ok s') :
    s.LeadsTo names s' := by
  cases n with
  | pairs entries =>
    refine leadsTo_foldlM (fun entry hentry s₁ s₂ hs₁ h => ?_) h
    obtain ⟨subject, value⟩ := entry
    have hkeep := hs₁.isExtendedBy
    obtain ⟨i, hi, h⟩ := exists_of_bind_eq_ok h
    refine leadsTo_applyFact (hkeep.knows hp) (hkeep.knows (hn _ ?_)) (fun t ht r hr => ?_) h
    · rw [Node.mem_references_pairs]
      refine ⟨_, hentry, .inl ?_⟩
      rw [factSubject.eq_def] at hi
      split at hi
      · cases hi
        exact List.mem_singleton_self _
      · simp at hi
    · exact hkeep.knows (hn r (Node.mem_references_pairs.mpr ⟨_, hentry, .inr ⟨t, ht, hr⟩⟩))
  | _ => simp [applyPairs] at h

theorem leadsTo_applyFacts {p : PropertyId} {body : List (String × Node)}
    (hp : s.world.Knows (.property p)) (hbody : s.world.KnowsBody body)
    (h : s.applyFacts p body = .ok s') : s.LeadsTo names s' := by
  rw [applyFacts] at h
  split at h
  · rw [Except.ok.inj h]
  · next facts hfacts =>
    refine leadsTo_foldlM (fun n hn s₁ s₂ hs₁ h => ?_) h
    refine leadsTo_applyPairs (hs₁.isExtendedBy.knows hp) (fun r hr => ?_) h
    exact hs₁.isExtendedBy.knows (hbody _ _ hfacts r (Node.references_of_mem_items hn hr))

theorem leadsTo_propertyFacts {t : Tree} (h : s.propertyFacts t = .ok s') :
    s.LeadsTo names s' := by
  obtain ⟨_, -, h⟩ := exists_of_bind_eq_ok h
  obtain ⟨entries, -, h⟩ := exists_of_bind_eq_ok h
  refine leadsTo_foldlM (fun entry _ s₁ s₂ _ h => ?_) h
  obtain ⟨p, hp, h⟩ := exists_of_bind_eq_ok h
  obtain ⟨_, -, h⟩ := exists_of_bind_eq_ok h
  obtain ⟨body, hbody, h⟩ := exists_of_bind_eq_ok h
  have hknown : s₁.world.Knows (.property p) :=
    knows_of_propertyNamed? (propertyNamed?_of_property hp)
  exact leadsTo_applyFacts hknown (knowsBody_of_readKeywords hbody) h

/-! ### Relation concepts -/

theorem leadsTo_noteMarker {c : ClassId} (h : s.noteMarker c = .ok s') : s.LeadsTo names s' := by
  obtain ⟨⟨s₁, p⟩, hadd, h⟩ := exists_of_bind_eq_ok h
  have hadded : s.LeadsTo names s₁ ∧ s₁.world.Has (.property p) :=
    leadsTo_addProperty (by
      simp [Property.references, PropertyRange.references, ClassExpression.references])
      ⟨by simp, by simp⟩ (by simp)
      (Property.hasPlainEnds (by simp [ClassExpression.readProperties])
        (by simp [ClassExpression.readProperties])) hadd
  rw [← Except.ok.inj h]
  refine hadded.1.tail (.concepts fun q hq => .inl ?_)
  rw [← Option.some.inj hq]
  exact hadded.2

/-- The main role of a concept relates the classes that its body associates with it to the concept,
and implies the property that all main roles imply. -/
theorem exists_of_addMainRole {name : String} {c : ClassId} {body : List (String × Node)}
    (h : s.addMainRole name c body = .ok s') :
    RelationConcepts.namePart.toList <+: name.toList ∧ ∃ associated domain p,
      body.lookup "X_associatedWithClasses" = some associated ∧
      associated.items.mapM Node.toClassExpression = .ok domain ∧
      s.addProperty {
        name := RelationConcepts.roleName name
        kind := .object
        domain
        range := .classes [.named c]
        parents := s.concepts.mainRole.toList } = .ok (s', p) := by
  rw [addMainRole] at h
  split at h
  · simp at h
  next hbegins =>
  split at h
  · simp at h
  next associated hassociated =>
  obtain ⟨domain, hdomain, h⟩ := exists_of_bind_eq_ok h
  obtain ⟨⟨s₁, p⟩, hadd, h⟩ := exists_of_bind_eq_ok h
  -- the associated roles add nothing
  have hs₁ : s₁ = s' := by
    dsimp only at h
    split at h
    · split at h
      · exact Except.ok.inj h
      · simp at h
    · exact Except.ok.inj h
  exact ⟨List.isPrefixOf_iff_prefix.mp (by simpa using hbegins), associated, domain, p, hassociated,
    hdomain, hs₁ ▸ hadd⟩

/-- The main role of a concept refers to the concept, to the classes that are associated with it and
to the property that all main roles imply. -/
theorem addMainRole_eq_ok {name : String} {c : ClassId} {body : List (String × Node)}
    (h : s.addMainRole name c body = .ok s') :
    ∃ d p, s.addProperty d = .ok (s', p) ∧ d.IsTyped ∧ d.inverseOf = none ∧
      s.world.HasPlainEnds d ∧
      (s.world.Has (.class c) → s.world.KnowsBody body → ∀ r ∈ d.references, s.Knows r) := by
  obtain ⟨-, associated, domain, p, hassociated, hdomain, hadd⟩ := exists_of_addMainRole h
  refine ⟨_, p, hadd, ⟨by simp, by simp⟩, rfl,
    Property.hasPlainEnds (fun e he => ?_) (by simp [ClassExpression.readProperties]),
    fun hc hbody r hr => ?_⟩
  · obtain ⟨n, -, hn⟩ := exists_of_forall₂_right (mapM_eq_ok hdomain) he
    exact Node.readProperties_of_toClassExpression hn
  simp only [Property.references, PropertyRange.references, List.mem_append, List.mem_flatMap,
    List.mem_map, List.mem_singleton, exists_eq_left, ClassExpression.references,
    Option.toList_none, List.nil_append, Option.mem_toList] at hr
  rcases hr with (⟨e, he, hr⟩ | rfl) | ⟨q, hq, rfl⟩
  · obtain ⟨n, hn, he⟩ := exists_of_forall₂_right (mapM_eq_ok hdomain) he
    exact .inl (hbody _ _ hassociated r
      (Node.references_of_mem_items hn (Node.references_of_toClassExpression he hr)))
  · exact .inl (.inl hc)
  · exact .inr ⟨q, hq, rfl⟩

theorem noteConcept_cases {name : String} {c : ClassId} {body : List (String × Node)}
    (h : s.noteConcept name c body = .ok s') :
    s = s' ∨ s.noteMarker c = .ok s' ∨ s.addMainRole name c body = .ok s' := by
  rw [noteConcept] at h
  split at h
  · exact .inr (.inl h)
  split at h
  · exact .inl (Except.ok.inj h)
  split at h
  · exact .inr (.inr h)
  · exact .inl (Except.ok.inj h)

theorem leadsTo_noteConcept {name : String} {c : ClassId} {body : List (String × Node)}
    (hc : s.world.Has (.class c)) (hbody : s.world.KnowsBody body)
    (h : s.noteConcept name c body = .ok s') : s.LeadsTo names s' := by
  rcases noteConcept_cases h with rfl | h | h
  · exact .refl
  · exact leadsTo_noteMarker h
  · obtain ⟨d, p, hadd, htyped, hinverse, hends, hknown⟩ := addMainRole_eq_ok h
    exact (leadsTo_addProperty (hknown hc hbody) htyped (by simp [hinverse]) hends hadd).1

theorem leadsTo_addEntry {concept : ClassId} {entry : IndividualId}
    (hconcept : s.world.Knows (.class concept)) (h : s.addEntry concept = .ok (s', entry)) :
    s.LeadsTo names s' ∧ s'.world.Has (.individual entry) := by
  obtain ⟨⟨s₁, i⟩, hadd, h⟩ := exists_of_bind_eq_ok h
  have hadded : s.LeadsTo names s₁ ∧ s₁.world.Has (.individual i) :=
    leadsTo_addIndividual (fun r hr => by rw [List.mem_singleton.mp hr]; exact hconcept) hadd
  obtain ⟨rfl, rfl⟩ := Prod.mk.inj (Except.ok.inj h)
  exact ⟨hadded.1.tail (.concepts fun p hp => .inr hp), hadded.2⟩

theorem leadsTo_applyRole {entry : IndividualId} {role : Term} {value : PairValue}
    (hentry : s.world.Knows (.individual entry)) (hrole : ∀ r ∈ role.references, s.world.Knows r)
    (hvalue : ∀ t ∈ value.terms, ∀ r ∈ t.references, s.world.Knows r)
    (h : s.applyRole entry role value = .ok s') : s.LeadsTo names s' := by
  rw [applyRole] at h
  split at h
  · next p hp =>
    split at h
    · simp at h
    · refine leadsTo_applyFact (hrole _ ?_) hentry hvalue h
      rw [Term.references, hp]
      exact List.mem_singleton_self _
  · simp at h

theorem leadsTo_applyEntry {subject : IndividualId} {p : PropertyId} {concept : ClassId} {n : Node}
    (hconcept : (s.world.getProperty p).rangeClasses.head? = some (.named concept))
    (hsubject : s.world.IsNamedIn names subject p) (hn : ∀ r ∈ n.references, s.world.Knows r)
    (h : s.applyEntry subject p concept n = .ok s') : s.LeadsTo names s' := by
  cases n with
  | pairs roles =>
    obtain ⟨⟨s₁, entry⟩, hadd, h⟩ := exists_of_bind_eq_ok h
    have hadded : s.LeadsTo names s₁ ∧ s₁.world.Has (.individual entry) :=
      leadsTo_addEntry (knows_of_rangeClasses hconcept) hadd
    obtain ⟨hs₁, hentry⟩ := hadded
    have hkeep := hs₁.isExtendedBy
    have hp : s.world.Has (.property p) := has_property_of_rangeClasses hconcept
    -- the individual becomes a value before its own roles are read
    have hstep : s₁.Step names
        { s₁ with world := s₁.world.write (.enter subject p entry) } := by
      refine .write ⟨concept, ?_⟩ (Write.forall_mem_references.mpr ⟨?_, ?_, fun r hr => ?_⟩) ?_
      · rw [hkeep.getProperty hp]
        exact hconcept
      · obtain ⟨name, _, -, hname, -⟩ := hsubject
        exact hkeep.knows (knows_of_individualNamed? hname)
      · exact .inl (hkeep.has hp)
      · rw [List.mem_singleton.mp hr]
        exact .inl hentry
      · rintro _ _ _ ⟨⟩
        exact hsubject.mono hkeep
    have hs₂ : s.LeadsTo names _ := hs₁.tail hstep
    refine hs₂.trans (leadsTo_foldlM (fun pair hpair s₃ s₄ hs₃ h => ?_) h)
    obtain ⟨role, value⟩ := pair
    have hkeep₃ := hs₂.isExtendedBy.trans hs₃.isExtendedBy
    refine leadsTo_applyRole (.inl ?_) (fun r hr => ?_) (fun t ht r hr => ?_) h
    · exact (hstep.isExtendedBy.trans hs₃.isExtendedBy).has hentry
    · exact hkeep₃.knows (hn r (Node.mem_references_pairs.mpr ⟨_, hpair, .inl hr⟩))
    · exact hkeep₃.knows (hn r (Node.mem_references_pairs.mpr ⟨_, hpair, .inr ⟨t, ht, hr⟩⟩))
  | _ => simp [applyEntry] at h

theorem leadsTo_applyEntries {subject : IndividualId} {role : Term} {n : Node}
    (hsubject : ∀ p, role.entity? = some (.property p) → s.world.IsNamedIn names subject p)
    (hn : ∀ r ∈ n.references, s.world.Knows r) (h : s.applyEntries subject role n = .ok s') :
    s.LeadsTo names s' := by
  rw [applyEntries] at h
  split at h
  · next p hp =>
    split at h
    · next concept hconcept =>
      refine leadsTo_foldlM (fun m hm s₁ s₂ hs₁ h => ?_) h
      have hkeep := hs₁.isExtendedBy
      refine leadsTo_applyEntry ?_ ((hsubject p hp).mono hkeep) (fun r hr => ?_) h
      · rw [hkeep.getProperty (has_property_of_rangeClasses hconcept)]
        exact hconcept
      · exact hkeep.knows (hn r (Node.references_of_mem_items hm hr))
    · simp at h
  · simp at h

/-- The subjects and main roles of a statement are those that it names. -/
theorem leadsTo_relationFacts {t : Tree} (hnames : t.relationNames ⊆ names)
    (h : s.relationFacts t = .ok s') : s.LeadsTo names s' := by
  obtain ⟨subjects, ht, h⟩ := exists_of_bind_eq_ok h
  obtain ⟨entries, hentries, h⟩ := exists_of_bind_eq_ok h
  refine leadsTo_foldlM (fun entry hentry s₁ s₂ _ h => ?_) h
  obtain ⟨name, inner⟩ := entry
  obtain ⟨subject, hsubject, h⟩ := exists_of_bind_eq_ok h
  obtain ⟨rows, hinner, h⟩ := exists_of_bind_eq_ok h
  obtain ⟨roles, hroles, h⟩ := exists_of_bind_eq_ok h
  refine leadsTo_foldlM (fun pair hpair s₃ s₄ hs₃ h => ?_) h
  obtain ⟨role, node⟩ := pair
  have hkeep := hs₃.isExtendedBy
  refine leadsTo_applyEntries (fun p hp => ?_) (fun r hr => ?_) h
  · -- the names of the subject and of the role are keys of the statement
    obtain ⟨named, hnamed, hroles⟩ := exists_of_bind_eq_ok hroles
    obtain ⟨⟨key, value⟩, hkey, hread⟩ := exists_of_forall₂_right (mapM_eq_ok hroles) hpair
    obtain ⟨t', ht', hread⟩ := exists_of_bind_eq_ok hread
    obtain ⟨m, -, hread⟩ := exists_of_bind_eq_ok hread
    obtain ⟨rfl, rfl⟩ := Prod.mk.inj (Except.ok.inj hread)
    refine IsNamedIn.mono ⟨name, key, hnames ?_, individualNamed?_of_individual hsubject, ?_⟩ hkeep
    · have hsubjects := Shape.mem_of_stringEntries hentries hentry
      have hrows := Shape.mem_of_stringEntries hnamed hkey
      rw [Shape.asMapping_eq_ok hinner] at hsubjects
      rw [Shape.asMapping_eq_ok ht, Tree.relationNames, List.mem_flatMap]
      exact ⟨_, hsubjects, List.mem_filterMap.mpr ⟨_, hrows, rfl⟩⟩
    · rw [propertyNamed?, lookup?_of_resolveName ht' hp]
  · exact hkeep.knows (.inr (.inl ((offers_of_readNamed hroles hpair).2 r hr)))

/-! ### Declarations -/

/-- A statement declares a name with a body that can be read. -/
structure Declares (s : LoadSession) (t : Tree) (name : String) (inner : Tree)
    (body : List (String × Node)) : Prop where
  statement : t = .mapping [(.string name, inner)]
  read : s.world.readKeywords inner.entries = .ok body

theorem declares_of_single {t inner : Tree} {name context : String} {entries : List (Tree × Tree)}
    {body : List (String × Node)} (hsingle : Shape.single t = .ok (name, inner))
    (hentries : Shape.declarationBody context inner = .ok entries)
    (hread : s.world.readKeywords entries = .ok body) : s.Declares t name inner body :=
  ⟨Shape.single_eq_ok_iff.mp hsingle, Shape.entries_of_declarationBody hentries ▸ hread⟩

/-- The body of an individual names its type. -/
theorem individualOf_eq_ok {name : String} {body : Tree} (h : s.individualOf name body = .ok s') :
    ∃ type i, s.addIndividual name type = .ok (s', i) ∧
      ∀ r ∈ type.references, s.world.Knows r := by
  obtain ⟨_, -, h⟩ := exists_of_bind_eq_ok h
  obtain ⟨entries, -, h⟩ := exists_of_bind_eq_ok h
  split at h
  · simp at h
  obtain ⟨parsed, hparsed, h⟩ := exists_of_bind_eq_ok h
  obtain ⟨types, htypes, h⟩ := exists_of_bind_eq_ok h
  have hbody := knowsBody_of_readKeywords hparsed
  dsimp only at h
  split at h
  · simp at h
  · next type =>
    obtain ⟨⟨s₁, i⟩, hadd, h⟩ := exists_of_bind_eq_ok h
    refine ⟨type, i, Except.ok.inj h ▸ hadd, fun r hr => ?_⟩
    obtain ⟨n, hn, htype⟩ :=
      exists_of_forall₂_right (mapM_eq_ok htypes) (List.mem_singleton_self type)
    cases hlookup : parsed.lookup "types" with
    | none =>
      rw [hlookup] at hn
      exact absurd hn List.not_mem_nil
    | some m =>
      rw [hlookup] at hn
      exact hbody _ _ hlookup r
        (Node.references_of_mem_items hn ((Node.eq_of_toNamedClass htype).1 hr))
  · simp at h

theorem leadsTo_individualOf {name : String} {body : Tree}
    (h : s.individualOf name body = .ok s') : s.LeadsTo names s' := by
  obtain ⟨type, i, hadd, htype⟩ := individualOf_eq_ok h
  exact (leadsTo_addIndividual htype hadd).1

theorem leadsTo_declareIndividual {t : Tree} (h : s.declareIndividual t = .ok s') :
    s.LeadsTo names s' := by
  obtain ⟨⟨name, body⟩, -, h⟩ := exists_of_bind_eq_ok h
  exact leadsTo_individualOf h

theorem leadsTo_declareIndividuals {t : Tree} (h : s.declareIndividuals t = .ok s') :
    s.LeadsTo names s' := by
  obtain ⟨entries, -, h⟩ := exists_of_bind_eq_ok h
  obtain ⟨_, -, h⟩ := exists_of_bind_eq_ok h
  refine leadsTo_foldlM (fun name _ s₁ s₂ _ h => ?_) h
  obtain ⟨text, -, h⟩ := exists_of_bind_eq_ok h
  exact leadsTo_individualOf h

/-- A flag that leaves an attribute also adds an individual. -/
theorem addProxy_eq_ok {c : ClassId} {body : List (String × Node)}
    (h : s.addProxy c body = .ok s') :
    ∃ flag, s.proxyFlag c body = .ok flag ∧ (flag.attribute? = none ∧ s = s' ∨
      ∃ value i, flag.attribute? = some value ∧
        { s with world.names := s.world.names.setAttribute (.class c) proxyKey value }.addIndividual
          ("i" ++ (s.world.getClass c).name) (.named c) = .ok (s', i)) := by
  obtain ⟨flag, hflag, h⟩ := exists_of_bind_eq_ok h
  refine ⟨flag, hflag, ?_⟩
  split at h
  · next hnone => exact .inl ⟨hnone, Except.ok.inj h⟩
  · next value hvalue =>
    obtain ⟨⟨s₁, i⟩, hadd, h⟩ := exists_of_bind_eq_ok h
    exact .inr ⟨value, i, hvalue, Except.ok.inj h ▸ hadd⟩

theorem leadsTo_addProxy {c : ClassId} {body : List (String × Node)}
    (hc : s.world.Has (.class c)) (h : s.addProxy c body = .ok s') : s.LeadsTo names s' := by
  obtain ⟨flag, -, ⟨-, rfl⟩ | ⟨value, i, -, hadd⟩⟩ := addProxy_eq_ok h
  · exact .refl
  · refine .head (.setAttribute (.class c) proxyKey value) (leadsTo_addIndividual ?_ hadd).1
    intro r hr
    rw [List.mem_singleton.mp hr]
    exact .inl hc

theorem references_of_parentsOf {body : List (String × Node)} {isA : List ClassExpression}
    (h : parentsOf body = .ok isA) {e : ClassExpression} (he : e ∈ isA) {r : Reference}
    (hr : r ∈ e.references) : ∃ n, body.lookup "SubClassOf" = some n ∧ r ∈ n.references := by
  have hthing : isA ≠ [.thing] := by
    rintro rfl
    rw [List.mem_singleton.mp he] at hr
    exact absurd hr List.not_mem_nil
  rw [parentsOf] at h
  split at h
  · exact absurd (Except.ok.inj h).symm hthing
  · next n hn =>
    obtain ⟨parents, hparents, h⟩ := exists_of_bind_eq_ok h
    split at h
    · exact absurd (Except.ok.inj h).symm hthing
    · rw [← Except.ok.inj h] at he
      obtain ⟨m, hm, hparent⟩ := exists_of_forall₂_right (mapM_eq_ok hparents) he
      exact ⟨n, hn, Node.references_of_mem_items hm ((Node.eq_of_toNamedClass hparent).1 hr)⟩

theorem references_of_definitionOf {body : List (String × Node)} {es : List ClassExpression}
    (h : definitionOf body = .ok es) {e : ClassExpression} (he : e ∈ es) {r : Reference}
    (hr : r ∈ e.references) : ∃ n, body.lookup "EquivalentTo" = some n ∧ r ∈ n.references := by
  rw [definitionOf] at h
  split at h
  · next n hn =>
    obtain ⟨e', he', h⟩ := exists_of_bind_eq_ok h
    rw [← Except.ok.inj h, List.mem_singleton] at he
    exact ⟨n, hn, Node.references_of_toClassExpression he' (he ▸ hr)⟩
  · rw [← Except.ok.inj h] at he
    exact absurd he List.not_mem_nil

/-- The parents and the definition of a class are named in its body. -/
theorem declareClass_eq_ok {t : Tree} (h : s.declareClass t = .ok s') :
    ∃ c inner body id s₁ s₂, s.Declares t c.name inner body ∧
      (∀ r ∈ c.references, s.world.Knows r) ∧ s.addClass c = .ok (s₁, id) ∧
      s₁.noteConcept c.name id body = .ok s₂ ∧ s₂.addProxy id body = .ok s' := by
  obtain ⟨⟨name, inner⟩, hsingle, h⟩ := exists_of_bind_eq_ok h
  obtain ⟨_, -, h⟩ := exists_of_bind_eq_ok h
  obtain ⟨entries, hentries, h⟩ := exists_of_bind_eq_ok h
  obtain ⟨body, hread, h⟩ := exists_of_bind_eq_ok h
  obtain ⟨isA, hisA, h⟩ := exists_of_bind_eq_ok h
  obtain ⟨comments, -, h⟩ := exists_of_bind_eq_ok h
  obtain ⟨labels, -, h⟩ := exists_of_bind_eq_ok h
  obtain ⟨equivalentTo, hequivalentTo, h⟩ := exists_of_bind_eq_ok h
  obtain ⟨⟨s₁, c⟩, hadd, h⟩ := exists_of_bind_eq_ok h
  obtain ⟨s₂, hconcept, h⟩ := exists_of_bind_eq_ok h
  have hbody := knowsBody_of_readKeywords hread
  have hparents : ∀ e ∈ isA, ∀ r ∈ e.references, s.world.Knows r := by
    intro e he r hr
    obtain ⟨n, hn, hmem⟩ := references_of_parentsOf hisA he hr
    exact hbody _ n hn r hmem
  have hdefinition : ∀ e ∈ equivalentTo, ∀ r ∈ e.references, s.world.Knows r := by
    intro e he r hr
    obtain ⟨n, hn, hmem⟩ := references_of_definitionOf hequivalentTo he hr
    exact hbody _ n hn r hmem
  refine ⟨_, inner, body, c, s₁, s₂, declares_of_single hsingle hentries hread, fun r hr => ?_,
    hadd, hconcept, h⟩
  obtain ⟨e, he, hr⟩ := List.mem_flatMap.mp hr
  exact (List.mem_append.mp he).elim (hparents e · r hr) (hdefinition e · r hr)

/-- A class is added, its concept is noted, and its proxy is added, each in a sequence of steps. -/
theorem exists_leadsTo_of_declareClass (names : List (String × String)) {t : Tree}
    (h : s.declareClass t = .ok s') :
    ∃ d inner body c s₁ s₂, s.Declares t d.name inner body ∧
      (s.addClass d = .ok (s₁, c) ∧ s.LeadsTo names s₁) ∧
      (s₁.noteConcept d.name c body = .ok s₂ ∧ s₁.LeadsTo names s₂) ∧
      s₂.addProxy c body = .ok s' ∧ s₂.LeadsTo names s' := by
  obtain ⟨d, inner, body, c, s₁, s₂, hdeclares, hknown, hadd, hconcept, hproxy⟩ :=
    declareClass_eq_ok h
  have hadded : s.LeadsTo names s₁ ∧ s₁.world.Has (.class c) := leadsTo_addClass hknown hadd
  obtain ⟨hs₁, hc⟩ := hadded
  have hs₂ : s₁.LeadsTo names s₂ := leadsTo_noteConcept hc
    (hs₁.isExtendedBy.knowsBody (knowsBody_of_readKeywords hdeclares.read)) hconcept
  exact ⟨d, inner, body, c, s₁, s₂, hdeclares, ⟨hadd, hs₁⟩, ⟨hconcept, hs₂⟩, hproxy,
    leadsTo_addProxy (hs₂.isExtendedBy.has hc) hproxy⟩

theorem leadsTo_declareClass {t : Tree} (h : s.declareClass t = .ok s') : s.LeadsTo names s' := by
  obtain ⟨d, inner, body, c, s₁, s₂, -, ⟨-, hs₁⟩, ⟨-, hs₂⟩, -, hs'⟩ :=
    exists_leadsTo_of_declareClass names h
  exact (hs₁.trans hs₂).trans hs'

theorem leadsTo_declareClasses {t : Tree} (h : s.declareClasses t = .ok s') :
    s.LeadsTo names s' := by
  rw [declareClasses] at h
  split at h
  · exact leadsTo_foldlM (fun _ _ _ _ _ => leadsTo_declareClass) h
  · simp at h

/-- A property is declared by a statement of its kind. -/
theorem isTyped_of_checkRange {name : String} {p : Property}
    (h : checkRange name p.kind p.range = .ok ())
    (hrange : (∃ e, p.range = .classes [e]) ∨ ∃ ds, ds ≠ [] ∧ p.range = .datatypes ds) :
    p.IsTyped := by
  rcases hrange with ⟨e, hrange⟩ | ⟨ds, hds, hrange⟩
  · rw [hrange] at h
    cases hkind : p.kind with
    | object => exact ⟨by simp [hkind, hrange], by simp [hkind, hrange]⟩
    | data => simp [hkind, checkRange] at h
  · rw [hrange] at h
    cases hkind : p.kind with
    | object => simp [hkind, checkRange] at h
    | data => exact ⟨by simp [hkind, hrange], by simp [hkind, hrange, hds]⟩

theorem lookup_of_below {keyword : String} {entries : List (Tree × Tree)}
    {body : List (String × Node)} {n : Node} (h : below keyword entries body = .ok n) :
    body.lookup keyword = some n :=
  Shape.eq_some_of_elim_eq_ok h

/-- The inverse of a declaration is named below its keyword. -/
theorem lookup_of_toProperty {body : List (String × Node)} {q : PropertyId}
    (h : (body.lookup "Inverse").mapM Node.toProperty = Except.ok (some q)) :
    ∃ n, body.lookup "Inverse" = some n ∧ n.toProperty = .ok q := by
  cases hn : body.lookup "Inverse" with
  | none =>
    rw [hn] at h
    cases h
  | some n =>
    rw [hn] at h
    obtain ⟨q', hq', h⟩ := exists_of_bind_eq_ok h
    rw [← Option.some.inj (Except.ok.inj h)]
    exact ⟨n, rfl, hq'⟩

/-- The domain, the range and the inverse of a property are named in its body. -/
theorem declareProperty_eq_ok {kind : PropertyKind} {t : Tree}
    (h : s.declareProperty kind t = .ok s') :
    ∃ d inner body p s₁, s.Declares t d.name inner body ∧
      (d.IsTyped ∧ ∀ r ∈ d.references, s.world.Knows r) ∧
      (∀ q, d.inverseOf = some q → ∃ name, s.world.lookup? name = some (.property q)) ∧
      s.addProperty d = .ok (s₁, p) ∧ s₁.applyFacts p body = .ok s' ∧ d.parents = [] ∧
      s.world.HasPlainEnds d := by
  obtain ⟨⟨name, inner⟩, hsingle, h⟩ := exists_of_bind_eq_ok h
  obtain ⟨_, -, h⟩ := exists_of_bind_eq_ok h
  obtain ⟨entries, hentries, h⟩ := exists_of_bind_eq_ok h
  obtain ⟨body, hread, h⟩ := exists_of_bind_eq_ok h
  obtain ⟨rangeNode, hrangeNode, h⟩ := exists_of_bind_eq_ok h
  obtain ⟨range, hrange, h⟩ := exists_of_bind_eq_ok h
  obtain ⟨domainNode, hdomainNode, h⟩ := exists_of_bind_eq_ok h
  obtain ⟨domain, hdomain, h⟩ := exists_of_bind_eq_ok h
  obtain ⟨_, hkind, h⟩ := exists_of_bind_eq_ok h
  obtain ⟨characteristics, -, h⟩ := exists_of_bind_eq_ok h
  obtain ⟨inverseOf, hinverse, h⟩ := exists_of_bind_eq_ok h
  obtain ⟨comments, -, h⟩ := exists_of_bind_eq_ok h
  obtain ⟨labels, -, h⟩ := exists_of_bind_eq_ok h
  obtain ⟨⟨s₁, p⟩, hadd, h⟩ := exists_of_bind_eq_ok h
  have hbody := knowsBody_of_readKeywords hread
  obtain ⟨hrangeRefs, hrangeForm⟩ := Node.eq_of_toRange hrange
  refine ⟨_, inner, body, p, s₁, declares_of_single hsingle hentries hread,
    ⟨isTyped_of_checkRange hkind hrangeForm, fun r hr => ?_⟩, fun q hq => ?_, hadd, h, rfl,
    Property.hasPlainEnds (Node.readProperties_of_toDomain hdomain) fun es hes => ?_⟩
  · simp only [Property.references, List.append_nil, List.mem_append, List.mem_map,
      Option.mem_toList] at hr
    rcases hr with (hr | hr) | ⟨q, rfl, rfl⟩
    · exact hbody _ _ (lookup_of_below hdomainNode) r (Node.references_of_toDomain hdomain hr)
    · exact hbody _ _ (lookup_of_below hrangeNode) r (hrangeRefs hr)
    · obtain ⟨n, hn, htoProperty⟩ := lookup_of_toProperty hinverse
      exact hbody _ _ hn _ (Node.references_of_toProperty htoProperty)
  · obtain rfl : inverseOf = some q := hq
    obtain ⟨n, hn, htoProperty⟩ := lookup_of_toProperty hinverse
    exact Node.exists_name_of_toProperty hread hn htoProperty
  · rw [show range = .classes es from hes] at hrange
    exact Node.readProperties_of_toRange hrange

/-- A statement of its own declares an inverse with the domain, the range and the characteristics
of the property that it names, turned around, and then states its facts. -/
theorem declareInverse_eq_ok {t : Tree} (h : s.declareInverse t = .ok s') :
    ∃ d inner body p s₁, s.Declares t d.name inner body ∧
      (d.IsTyped ∧ ∀ r ∈ d.references, s.world.Knows r) ∧
      (∃ q, d.inverseOf = some q ∧
        d.characteristics = (s.world.getProperty q).characteristics.inverted ∧
        ∃ name, s.world.lookup? name = some (.property q)) ∧
      s.addProperty d = .ok (s₁, p) ∧ s₁.applyFacts p body = .ok s' ∧ d.parents = [] ∧
      s.world.HasPlainEnds d := by
  obtain ⟨⟨name, inner⟩, hsingle, h⟩ := exists_of_bind_eq_ok h
  obtain ⟨_, -, h⟩ := exists_of_bind_eq_ok h
  obtain ⟨entries, hentries, h⟩ := exists_of_bind_eq_ok h
  obtain ⟨body, hread, h⟩ := exists_of_bind_eq_ok h
  have hbody := knowsBody_of_readKeywords hread
  split at h
  · simp at h
  next n hn =>
  obtain ⟨q, hq, h⟩ := exists_of_bind_eq_ok h
  dsimp only at h
  split at h
  · simp at h
  obtain ⟨⟨s₁, p⟩, hadd, h⟩ := exists_of_bind_eq_ok h
  refine ⟨_, inner, body, p, s₁, declares_of_single hsingle hentries hread,
    ⟨⟨by simp, by simp⟩, fun r hr => ?_⟩,
    ⟨q, rfl, rfl, Node.exists_name_of_toProperty hread hn hq⟩, hadd, h, rfl,
    fun e he => .inr ⟨q, ?_⟩⟩
  rotate_left
  · -- the ends of the property that is named, the other way round
    exact List.mem_append.mpr (List.mem_append.mp he).symm
  have hbase : r ∈ (s.world.getProperty q).references → s.world.Knows r :=
    fun hr => .inr (.inr ⟨q, hr⟩)
  simp only [Property.references, PropertyRange.references, List.append_nil, List.mem_append,
    Option.toList_some, List.map_cons, List.map_nil, List.mem_singleton] at hr
  rcases hr with (hr | hr) | rfl
  · refine hbase (List.mem_append_left _ (List.mem_append_right _ ?_))
    rw [Property.rangeClasses] at hr
    split at hr
    · next classes hclasses => rwa [hclasses]
    · exact absurd hr List.not_mem_nil
  · exact hbase (List.mem_append_left _ (List.mem_append_left _ hr))
  · exact hbody _ _ hn _ (Node.references_of_toProperty hq)

/-- A property is declared, and then its facts are stated. -/
theorem leadsTo_declaration {t inner : Tree} {d : Property} {body : List (String × Node)}
    {p : PropertyId} {s₁ : LoadSession} (hdeclares : s.Declares t d.name inner body)
    (hknown : d.IsTyped ∧ ∀ r ∈ d.references, s.world.Knows r)
    (hinverse : ∀ q, d.inverseOf = some q → ∃ name, s.world.lookup? name = some (.property q))
    (hends : s.world.HasPlainEnds d) (hadd : s.addProperty d = .ok (s₁, p))
    (h : s₁.applyFacts p body = .ok s') : s.LeadsTo names s' := by
  have hadded : s.LeadsTo names s₁ ∧ s₁.world.Has (.property p) :=
    leadsTo_addProperty (fun r hr => .inl (hknown.2 r hr)) hknown.1 hinverse hends hadd
  have hbody : s₁.world.KnowsBody body :=
    hadded.1.isExtendedBy.knowsBody (knowsBody_of_readKeywords hdeclares.read)
  exact hadded.1.trans (leadsTo_applyFacts (.inl hadded.2) hbody h)

theorem leadsTo_declareProperty {kind : PropertyKind} {t : Tree}
    (h : s.declareProperty kind t = .ok s') : s.LeadsTo names s' := by
  obtain ⟨d, inner, body, p, s₁, hdeclares, hknown, hinverse, hadd, h, -, hends⟩ :=
    declareProperty_eq_ok h
  exact leadsTo_declaration hdeclares hknown hinverse hends hadd h

theorem leadsTo_declareInverse {t : Tree} (h : s.declareInverse t = .ok s') :
    s.LeadsTo names s' := by
  obtain ⟨d, inner, body, p, s₁, hdeclares, hknown, ⟨q, hq, -, hname⟩, hadd, h, -, hends⟩ :=
    declareInverse_eq_ok h
  refine leadsTo_declaration hdeclares hknown (fun r hr => ?_) hends hadd h
  rw [hq] at hr
  rw [← Option.some.inj hr]
  exact hname

/-! ### Axioms -/

/-- A restriction is added to its subject. -/
theorem addRestriction_eq_ok {t : Tree} (h : s.addRestriction t = .ok s') :
    ∃ subject r, s.world.restriction? t = some (subject, r) ∧
      (∀ x ∈ r.toExpression.references, s.world.Knows x) ∧
      ((∃ i, subject = .individual i ∧
          s' = { s with world := s.world.addIndividualAxiom i r.toExpression }) ∨
        ∃ c, subject = .class c ∧
          s' = { s with world := s.world.addClassAxiom c r.toExpression }) := by
  obtain ⟨entries, hentries, h⟩ := exists_of_bind_eq_ok h
  obtain ⟨nameTree, hnameTree, h⟩ := exists_of_bind_eq_ok h
  obtain ⟨name, hname, h⟩ := exists_of_bind_eq_ok h
  obtain ⟨body, hbody, h⟩ := exists_of_bind_eq_ok h
  obtain ⟨term, hterm, h⟩ := exists_of_bind_eq_ok h
  obtain ⟨r, hr, h⟩ := exists_of_bind_eq_ok h
  have hread : ∀ e, term.entity? = some e → s.world.restriction? t = some (e, r) := by
    intro e he
    have hname : nameTree.text? = some name := Shape.eq_some_of_elim_eq_ok hname
    rw [restriction?, Shape.asMapping_eq_ok hentries, Tree.entries,
      Shape.eq_some_of_elim_eq_ok hnameTree, Shape.eq_some_of_elim_eq_ok hbody]
    simp [hname, lookup?_of_resolveName hterm he, hr, Except.toOption]
  have hknown : ∀ x ∈ r.toExpression.references, s.world.Knows x :=
    fun x hx => .inr (.inl (offers_of_readRestriction hr x hx))
  split at h
  · next i hi => exact ⟨_, r, hread _ hi, hknown, .inl ⟨i, rfl, (Except.ok.inj h).symm⟩⟩
  · next c hc => exact ⟨_, r, hread _ hc, hknown, .inr ⟨c, rfl, (Except.ok.inj h).symm⟩⟩
  · simp at h

theorem leadsTo_addRestriction {t : Tree} (h : s.addRestriction t = .ok s') :
    s.LeadsTo names s' := by
  obtain ⟨_, _, -, hknown, ⟨i, -, rfl⟩ | ⟨c, -, rfl⟩⟩ := addRestriction_eq_ok h
  · exact .single (.individualAxiom hknown)
  · exact .single (.classAxiom hknown)

/-- The individuals of a group are those that are named and, possibly, all that are there. -/
theorem knows_of_groupOf {seen group : List IndividualId} {items : List Tree}
    (hseen : ∀ i ∈ seen, s.world.Knows (.individual i)) (h : s.groupOf seen items = .ok group) :
    ∀ i ∈ group, s.world.Knows (.individual i) := by
  induction items generalizing seen with
  | nil =>
    rw [groupOf] at h
    rw [← Except.ok.inj h]
    exact hseen
  | cons item rest ih =>
    rw [groupOf] at h
    obtain ⟨name, -, h⟩ := exists_of_bind_eq_ok h
    split at h
    · -- all individuals that are there
      rw [← Except.ok.inj h]
      intro i hi
      obtain ⟨n, hn, rfl⟩ := List.mem_map.mp hi
      exact .inl (List.mem_range.mp hn)
    · obtain ⟨i, hi, h⟩ := exists_of_bind_eq_ok h
      refine ih (fun j hj => ?_) h
      rcases List.mem_append.mp hj with hj | hj
      · exact hseen j hj
      · rw [List.mem_singleton.mp hj]
        exact knows_of_individualNamed? (individualNamed?_of_individual hi)

theorem leadsTo_addDifferent {t : Tree} (h : s.addDifferent t = .ok s') : s.LeadsTo names s' := by
  obtain ⟨group, hgroup, h⟩ := exists_of_bind_eq_ok h
  rw [← Except.ok.inj h]
  exact .single (.different (knows_of_groupOf (by simp) hgroup))

theorem leadsTo_addAnnotation {t : Tree} (h : s.addAnnotation t = .ok s') :
    s.LeadsTo names s' := by
  obtain ⟨comment, -, h⟩ := exists_of_bind_eq_ok h
  rw [← Except.ok.inj h]
  exact .single (.comment comment)

theorem addRule_eq_ok {t : Tree} (h : s.addRule t = .ok s') :
    ∃ r world id, (∀ x ∈ r.references, s.world.Knows x) ∧ s.world.addRule r = .ok (world, id) ∧
      s' = { s with world } := by
  obtain ⟨entries, -, h⟩ := exists_of_bind_eq_ok h
  obtain ⟨_, -, h⟩ := exists_of_bind_eq_ok h
  obtain ⟨name, -, h⟩ := exists_of_bind_eq_ok h
  obtain ⟨_, -, h⟩ := exists_of_bind_eq_ok h
  obtain ⟨source, -, h⟩ := exists_of_bind_eq_ok h
  obtain ⟨_, -, h⟩ := exists_of_bind_eq_ok h
  obtain ⟨rule, hrule, h⟩ := exists_of_bind_eq_ok h
  obtain ⟨⟨world, id⟩, hadd, h⟩ := exists_of_bind_eq_ok h
  exact ⟨rule, world, id, fun x hx => .inr (.inl (offers_of_readRule hrule x hx)),
    ok_of_ofNames hadd, (Except.ok.inj h).symm⟩

theorem leadsTo_addRule {t : Tree} (h : s.addRule t = .ok s') : s.LeadsTo names s' := by
  obtain ⟨r, world, id, hknown, hadd, rfl⟩ := addRule_eq_ok h
  exact (leadsTo_add (a := .rule r)
    ⟨fun x hx => .inl (hknown x hx), by simp, by simp, by simp, by simp⟩
    (by rw [Addition.perform, hadd]; rfl)).1

/-! ### Imports -/

theorem mem_of_mem_insertSorted {key : String} {c : ClassId} {row : String × ClassId} :
    ∀ {rows : List (String × ClassId)}, row ∈ insertSorted key c rows → row = (key, c) ∨ row ∈ rows
  | [], h => .inl (List.mem_singleton.mp h)
  | (k, d) :: rest, h => by
    rw [insertSorted] at h
    split at h
    · exact List.mem_cons.mp h
    · rcases List.mem_cons.mp h with rfl | h
      · exact .inr List.mem_cons_self
      · exact (mem_of_mem_insertSorted h).imp_right (List.mem_cons_of_mem _)

/-- An imported class is there under its local name and under its qualified one. -/
theorem lists_of_addImportedClass {w world : World} {name localName iri qualifier : String}
    {c : ClassId} (hname : name = qualifier ++ localName)
    (h : w.addImportedClass name localName iri = .ok (world, c)) :
    world.Lists qualifier (localName, c) := by
  obtain ⟨names, hnames, h⟩ := exists_of_bind_eq_ok h
  obtain ⟨hworld, rfl⟩ := Prod.mk.inj (Except.ok.inj h)
  have hc : world.class? ⟨w.classes.size⟩ = some { name := localName, iri, imported := true } := by
    rw [← hworld]
    exact Array.getElem?_push_size
  refine ⟨has_class_iff.mpr ⟨_, hc⟩, by rw [getClass_eq hc], ?_⟩
  rw [← hworld]
  exact (Namespace.get?_of_insert hnames _).trans (if_pos hname.symm)

/-- The classes of a file are put into the table of its import as they are added. -/
theorem leadsTo_addImportedClasses {qualifier : String} {found classes : List (String × ClassId)}
    {iris : List String} (hfound : ∀ row ∈ found, s.world.Lists qualifier row)
    (h : s.addImportedClasses qualifier found iris = .ok (s', classes)) :
    s.LeadsTo names s' ∧ ∀ row ∈ classes, s'.world.Lists qualifier row := by
  induction iris generalizing s found with
  | nil =>
    rw [addImportedClasses] at h
    obtain ⟨rfl, rfl⟩ := Prod.mk.inj (Except.ok.inj h)
    exact ⟨.refl, hfound⟩
  | cons iri rest ih =>
    rw [addImportedClasses] at h
    dsimp only at h
    split at h
    · exact ih hfound h
    · obtain ⟨⟨world, c⟩, hadd, h⟩ := exists_of_bind_eq_ok h
      have hs : s.LeadsTo names { s with world } :=
        (leadsTo_add (a := .importedClass (qualifier ++ localName iri) (localName iri) iri)
          ⟨fun r hr => absurd hr List.not_mem_nil, by simp, by simp, by simp, by simp⟩
          (map_of_ofNames hadd)).1
      obtain ⟨hrest, hclasses⟩ := ih (fun row hrow => by
        rcases mem_of_mem_insertSorted hrow with rfl | hrow
        · exact lists_of_addImportedClass rfl (ok_of_ofNames hadd)
        · exact hs.isExtendedBy.lists (hfound row hrow)) h
      exact ⟨hs.trans hrest, hclasses⟩

/-- An import adds the classes of a file under its qualifier and then lists them. -/
theorem importFrom_eq_ok {qualifier : Option String} {iris : List String}
    {i : List (String × ClassId) → Import}
    (h : (do
      let (s, classes) ← s.addImportedClasses (qualifier.getD "") [] iris
      return { s with world := s.world.addImport (i classes) }) = Except.ok s')
    (hqualifier : ∀ classes, (i classes).qualifier = qualifier)
    (hclasses : ∀ classes, (i classes).classes = classes) :
    ∃ iris s₁ j, s.addImportedClasses (j.qualifier.getD "") [] iris = .ok (s₁, j.classes) ∧
      s' = { s₁ with world := s₁.world.addImport j } := by
  obtain ⟨⟨s₁, classes⟩, hread, h⟩ := exists_of_bind_eq_ok h
  refine ⟨iris, s₁, i classes, ?_, (Except.ok.inj h).symm⟩
  rw [hqualifier, hclasses]
  exact hread

theorem addImport_eq_ok {t : Tree} (h : s.addImport t = .ok s') :
    ∃ iris s₁ j, s.addImportedClasses (j.qualifier.getD "") [] iris = .ok (s₁, j.classes) ∧
      s' = { s₁ with world := s₁.world.addImport j } := by
  obtain ⟨entries, -, h⟩ := exists_of_bind_eq_ok h
  obtain ⟨_, -, h⟩ := exists_of_bind_eq_ok h
  dsimp only at h
  split at h
  · obtain ⟨iri, -, h⟩ := exists_of_bind_eq_ok h
    split at h
    · obtain ⟨written, -, h⟩ := exists_of_bind_eq_ok h
      split at h
      · simp at h
      obtain ⟨triples, -, h⟩ := exists_of_bind_eq_ok h
      split at h
      · split at h
        · simp at h
        · exact importFrom_eq_ok h (fun _ => rfl) (fun _ => rfl)
      · exact importFrom_eq_ok h (fun _ => rfl) (fun _ => rfl)
    · simp at h
  · simp at h

theorem leadsTo_addImport {t : Tree} (h : s.addImport t = .ok s') : s.LeadsTo names s' := by
  obtain ⟨iris, s₁, j, hread, rfl⟩ := addImport_eq_ok h
  have hadded : s.LeadsTo names s₁ ∧ ∀ row ∈ j.classes, s₁.world.Lists (j.qualifier.getD "") row :=
    leadsTo_addImportedClasses (by simp) hread
  refine hadded.1.tail
    (.add (a := .ontology j) ⟨fun r hr => .inl ?_, by simp, by simp, by simp, ?_⟩ rfl)
  · obtain ⟨row, hrow, rfl⟩ := List.mem_map.mp hr
    exact .inl (hadded.2 row hrow).has
  · rintro _ ⟨⟩
    exact hadded.2

/-! ### Statements -/

/-- **Every statement is a sequence of steps.** -/
theorem leadsTo_perform {kind : Statement} {t : Tree}
    (hnames : kind = .relationFacts → t.relationNames ⊆ names) (h : s.perform kind t = .ok s') :
    s.LeadsTo names s' := by
  cases kind with
  | importFile => exact leadsTo_addImport h
  | comments => exact leadsTo_addAnnotation h
  | individual => exact leadsTo_declareIndividual h
  | individuals => exact leadsTo_declareIndividuals h
  | oneClass => exact leadsTo_declareClass h
  | classes => exact leadsTo_declareClasses h
  | objectProperty | dataProperty => exact leadsTo_declareProperty h
  | inverseProperty => exact leadsTo_declareInverse h
  | propertyFacts => exact leadsTo_propertyFacts h
  | relationFacts => exact leadsTo_relationFacts (hnames rfl) h
  | restriction => exact leadsTo_addRestriction h
  | rule => exact leadsTo_addRule h
  | differentIndividuals => exact leadsTo_addDifferent h

theorem keyword_of_ofKeyword? {keyword : String} {kind : Statement}
    (h : Statement.ofKeyword? keyword = some kind) : kind.keyword = keyword := by
  have hkeyword := List.find?_some h
  exact of_decide_eq_true hkeyword

/-- A statement passes if it is the one that gives the IRI or does what its kind does. -/
theorem statement_eq_ok_iff {keyword : String} {t : Tree} : s.statement keyword t = .ok s' ↔
    keyword = "iri" ∧ s = s' ∨
      ∃ kind, Statement.ofKeyword? keyword = some kind ∧ s.perform kind t = .ok s' := by
  rw [statement]
  split
  · next hiri =>
    subst hiri
    simp [show Statement.ofKeyword? "iri" = none by decide]
  · next hiri =>
    split
    · next hnone => simp [hiri, hnone]
    · next kind hkind =>
      cases hperform : s.perform kind t with
      | error e => simp [hiri, hkind, hperform, Except.mapError]
      | ok s₁ => simp [hiri, hkind, hperform, Except.mapError]

/-- A statement with the keyword of a kind does what the kind does. -/
theorem statement_keyword_eq_ok_iff {kind : Statement} {t : Tree} :
    s.statement kind.keyword t = .ok s' ↔ s.perform kind t = .ok s' := by
  have hkind : Statement.ofKeyword? kind.keyword = some kind := by cases kind <;> decide
  rw [statement_eq_ok_iff]
  constructor
  · rintro (⟨hiri, -⟩ | ⟨k, hk, h⟩)
    · rw [hiri] at hkind
      cases hkind
    · rwa [Option.some.inj (hkind.symm.trans hk)]
  · exact fun h => .inr ⟨kind, hkind, h⟩

theorem leadsTo_statement {keyword : String} {body : Tree}
    (hnames : keyword = Statement.relationFacts.keyword → body.relationNames ⊆ names)
    (h : s.statement keyword body = .ok s') : s.LeadsTo names s' := by
  rcases statement_eq_ok_iff.mp h with ⟨-, rfl⟩ | ⟨kind, hkind, hperform⟩
  · exact .refl
  · refine leadsTo_perform (fun hrelation => hnames ?_) hperform
    rw [← keyword_of_ofKeyword? hkind, hrelation]

/-- A list of statements is a sequence of steps. -/
theorem leadsTo_load {statements : List (String × Tree)}
    (hnames : ∀ keyword body, (keyword, body) ∈ statements →
      keyword = Statement.relationFacts.keyword → body.relationNames ⊆ names)
    (h : s.load statements = .ok s') : s.LeadsTo names s' := by
  refine leadsTo_foldlM (fun statement hstatement s₁ s₂ _ h => ?_) h
  obtain ⟨keyword, body⟩ := statement
  exact leadsTo_statement (hnames keyword body hstatement) h

end LoadSession

/-- **Loading a document is a sequence of steps from an empty ontology,** where entries come with
the names that the document gives. -/
theorem World.leadsTo_of_load {settings : LoadSettings} {folder : Folder} {base : String}
    {document : Tree} {w : World} (h : load settings folder base document = .ok w) :
    ∃ iri s, s.world = w ∧
      LoadSession.LeadsTo document.entryNames { world := { iri }, settings, folder, base } s := by
  obtain ⟨statements, hstatements, h⟩ := exists_of_bind_eq_ok h
  obtain ⟨s, hs, h⟩ := exists_of_bind_eq_ok h
  refine ⟨_, s, Except.ok.inj h, LoadSession.leadsTo_load (fun keyword body hmem hkeyword => ?_) hs⟩
  rw [Tree.entryNames, hstatements]
  refine fun row hrow => List.mem_flatMap.mpr ⟨_, hmem, ?_⟩
  dsimp only
  rw [if_pos hkeyword]
  exact hrow

end Ontology
