import Ontology.Proofs.Notes
import Ontology.Proofs.RestrictionExport

/-!
# Main roles

Every class below the marker class of relation concepts has a main role, a property from the classes
that its body associates with it to the class itself.  The role is made when the class is declared,
and a class has older parents only, so no later statement can put a class below the marker.

## Main definitions

* `LoadSession.MeetsClass` — loading comes to the declaration of a class.
* `LoadSession.AssociatedBy` — the declaration of a class associates it with other ones.
* `World.IsMainRole` — a property is the main role of a class.
* `World.HasMainRoles` — main roles belong to the classes below the marker, and each of these has
  one.

## Main results

* `LoadSession.invariant_of_load` — what declarations of classes and all other steps preserve.
* `LoadSession.hasMainRoles_declareClass` — the declaration of a class keeps main roles complete.
* `World.mainRoles_of_load` — **every relation concept of a document has its main role, and only the
  declaration of a relation concept makes one.**
-/

namespace Ontology

/-! ### Declarations of classes -/

namespace LoadSession

open World

variable {start s s₁ s₂ s' : LoadSession} {statements : List (String × Tree)} {keyword : String}
  {t body : Tree}

/-- The classes that a statement declares, each with its name and its body. -/
def classItems (keyword : String) (body : Tree) : List Tree :=
  match Statement.ofKeyword? keyword with
  | some .oneClass => [body]
  | some .classes => body.items?.getD []
  | _ => []

/-- Loading comes to the declaration of a class. -/
def MeetsClass (start : LoadSession) (statements : List (String × Tree)) (s : LoadSession)
    (t : Tree) : Prop :=
  ∃ before keyword body after done items s₀, statements = before ++ (keyword, body) :: after ∧
    start.load before = .ok s₀ ∧ classItems keyword body = done ++ t :: items ∧
    done.foldlM declareClass s₀ = .ok s

/-- Some statement declares a class of a name. -/
def DeclaresClass (statements : List (String × Tree)) (name : String) : Prop :=
  ∃ keyword body inner, (keyword, body) ∈ statements ∧
    .mapping [(.string name, inner)] ∈ classItems keyword body

/-- The declaration of a class associates it with other ones. -/
def AssociatedBy (start : LoadSession) (statements : List (String × Tree)) (name : String)
    (classes : List ClassExpression) : Prop :=
  ∃ s t inner body n, MeetsClass start statements s t ∧ s.Declares t name inner body ∧
    body.lookup "X_associatedWithClasses" = some n ∧
    n.items.mapM Node.toClassExpression = .ok classes

/-- A statement declares its classes one by one; without any, it notes entries at most. -/
theorem statement_cases (h : s.statement keyword body = .ok s') :
    (classItems keyword body).foldlM declareClass s = .ok s' ∨
      classItems keyword body = [] ∧ ∃ entries, NotesEntries entries s s' := by
  rcases statement_eq_ok_iff.mp h with ⟨rfl, rfl⟩ | ⟨kind, hkind, h⟩
  · exact .inr ⟨rfl, [], .refl s⟩
  rw [classItems, hkind]
  by_cases hone : kind = .oneClass
  · subst hone
    have h : s.declareClass body = .ok s' := h
    exact .inl (by rw [List.foldlM_cons, h]; rfl)
  by_cases hclasses : kind = .classes
  · subst hclasses
    have h : s.declareClasses body = .ok s' := h
    rw [declareClasses] at h
    split at h
    · next items hitems => exact .inl (by simpa [hitems] using h)
    · simp at h
  refine .inr ⟨by simp [hone, hclasses], ?_⟩
  by_cases hrelation : kind = .relationFacts
  · subst hrelation
    exact exists_notesEntries_relationFacts h
  · exact ⟨[], notesEntries_perform hone hclasses hrelation h⟩

/-- **What each declaration of a class preserves, and every other step, holds in the end.** -/
theorem invariant_of_load {I : LoadSession → Prop}
    (hnotes : ∀ entries names s₁ s₂, NotesEntries entries s₁ s₂ → s₁.LeadsTo names s₂ → I s₁ → I s₂)
    (hclass : ∀ s₁ t s₂, MeetsClass start statements s₁ t → s₁.declareClass t = .ok s₂ →
      I s₁ → I s₂)
    (hstart : I start) (h : start.load statements = .ok s') : I s' := by
  refine invariant_of_foldlM (fun before statement after s₁ s₂ heq hbefore hs₁ h => ?_) hstart h
  obtain ⟨keyword, body⟩ := statement
  rcases statement_cases h with hclasses | ⟨-, entries, hentries⟩
  · refine invariant_of_foldlM (fun done t items s₃ s₄ hitems hdone hs₃ h => ?_) hs₁ hclasses
    exact hclass s₃ t s₄
      ⟨before, keyword, body, after, done, items, s₁, heq, hbefore, hitems, hdone⟩ h hs₃
  · exact hnotes entries body.relationNames s₁ s₂ hentries
      (leadsTo_statement (fun _ _ hrow => hrow) h) hs₁

/-- Loading comes to a declaration of a list of statements also if further ones follow. -/
theorem MeetsClass.append {before : List (String × Tree)} (h : MeetsClass start before s t)
    (after : List (String × Tree)) : MeetsClass start (before ++ after) s t := by
  obtain ⟨first, keyword, body, rest, done, items, s₀, rfl, hfirst, hitems, hdone⟩ := h
  exact ⟨first, keyword, body, rest ++ after, done, items, s₀, by simp, hfirst, hitems, hdone⟩

/-- It also holds wherever loading comes to the declaration of a class. -/
theorem MeetsClass.invariant {I : LoadSession → Prop}
    (hnotes : ∀ entries names s₁ s₂, NotesEntries entries s₁ s₂ → s₁.LeadsTo names s₂ → I s₁ → I s₂)
    (hclass : ∀ s₁ t s₂, MeetsClass start statements s₁ t → s₁.declareClass t = .ok s₂ →
      I s₁ → I s₂)
    (hstart : I start) (h : MeetsClass start statements s t) : I s := by
  obtain ⟨before, keyword, body, after, done, items, s₀, rfl, hbefore, hitems, hdone⟩ := h
  have hs₀ : I s₀ := invariant_of_load hnotes
    (fun s₁ t s₂ hmeets => hclass s₁ t s₂ (hmeets.append _)) hstart hbefore
  refine invariant_of_foldlM (fun first u rest s₁ s₂ heq hfirst hs₁ h => ?_) hs₀ hdone
  have hbegins : classItems keyword body = first ++ u :: (rest ++ t :: items) := by
    rw [hitems, heq, List.append_assoc, List.cons_append]
  exact hclass s₁ u s₂
    ⟨before, keyword, body, after, first, _, s₀, rfl, hbefore, hbegins, hfirst⟩ h hs₁

/-- Loading that passes declares each of the classes that it comes to, and goes on from there. -/
theorem MeetsClass.exists_declareClass (h : MeetsClass start statements s t)
    (hload : start.load statements = .ok s') : ∃ (s₁ s₂ : LoadSession) (items : List Tree)
      (after : List (String × Tree)), s.declareClass t = .ok s₁ ∧
        items.foldlM declareClass s₁ = .ok s₂ ∧ s₂.load after = .ok s' := by
  obtain ⟨before, keyword, body, after, done, items, s₀, rfl, hbefore, hitems, hdone⟩ := h
  obtain ⟨_, s₂, hbefore', hstatement, hafter⟩ := exists_of_load_append_cons hload
  obtain rfl := Except.ok.inj (hbefore.symm.trans hbefore')
  rcases statement_cases hstatement with hclasses | ⟨hnone, -⟩
  · rw [hitems, List.foldlM_append] at hclasses
    obtain ⟨_, hdone', hclasses⟩ := exists_of_bind_eq_ok hclasses
    obtain rfl := Except.ok.inj (hdone.symm.trans hdone')
    rw [List.foldlM_cons] at hclasses
    obtain ⟨s₁, hs₁, hrest⟩ := exists_of_bind_eq_ok hclasses
    exact ⟨s₁, s₂, items, after, hs₁, hrest, hafter⟩
  · rw [hitems] at hnone
    exact absurd (List.append_eq_nil_iff.mp hnone).2 (List.cons_ne_nil _ _)

/-- Loading that passes comes to each declaration of a class. -/
theorem exists_meetsClass (hload : start.load statements = .ok s')
    (hstatement : (keyword, body) ∈ statements) (ht : t ∈ classItems keyword body) :
    ∃ s, MeetsClass start statements s t := by
  obtain ⟨before, after, rfl⟩ := List.append_of_mem hstatement
  obtain ⟨done, items, hitems⟩ := List.append_of_mem ht
  obtain ⟨s₀, s₂, hbefore, hstatement, -⟩ := exists_of_load_append_cons hload
  rcases statement_cases hstatement with hclasses | ⟨hnone, -⟩
  · rw [hitems, List.foldlM_append] at hclasses
    obtain ⟨s, hdone, -⟩ := exists_of_bind_eq_ok hclasses
    exact ⟨s, before, keyword, body, after, done, items, s₀, rfl, hbefore, hitems, hdone⟩
  · rw [hnone] at ht
    exact absurd ht List.not_mem_nil

/-- What is there once a class has been declared is not lost. -/
theorem MeetsClass.isExtendedBy (h : MeetsClass start statements s t)
    (hload : start.load statements = .ok s') (hdeclare : s.declareClass t = .ok s₁) :
    s₁.world.IsExtendedBy s'.world := by
  obtain ⟨_, s₂, items, after, hdeclare', hitems, hafter⟩ := h.exists_declareClass hload
  obtain rfl := Except.ok.inj (hdeclare.symm.trans hdeclare')
  have hsteps : s₁.LeadsTo [] s₂ := leadsTo_foldlM (fun _ _ _ _ _ => leadsTo_declareClass) hitems
  obtain ⟨names, hsteps'⟩ := exists_leadsTo_of_load hafter
  exact hsteps.isExtendedBy.trans hsteps'.isExtendedBy

end LoadSession

namespace World

variable {w w' : World} {c d : ClassId} {p : PropertyId}

theorem getClass_of_push {new : Class} (hclasses : w'.classes = w.classes.push new) :
    w'.getClass c = if c = ⟨w.classes.size⟩ then new else w.getClass c := by
  rw [getClass, class?, hclasses, Array.getElem?_push]
  cases c with
  | mk n =>
    simp only [ClassId.mk.injEq]
    split <;> rfl

theorem getProperty_of_push {new : Property} (hproperties : w'.properties = w.properties.push new) :
    w'.getProperty p = if p = ⟨w.properties.size⟩ then new else w.getProperty p := by
  rw [getProperty, property?, hproperties, Array.getElem?_push]
  cases p with
  | mk n =>
    simp only [PropertyId.mk.injEq]
    split <;> rfl

/-! ### Hierarchies of extensions -/

/-- A class with a parent is there. -/
theorem class?_of_mem_parents (h : d ∈ (w.getClass c).parents) :
    w.class? c = some (w.getClass c) := by
  obtain ⟨e, he, -⟩ := List.mem_filterMap.mp h
  exact class?_of_mem_isA he

/-- Whatever is below another class is there. -/
theorem has_of_isSubclassOf (hne : c ≠ d) (h : w.isSubclassOf c d = true) : w.Has (.class c) := by
  rcases (isSubclassOf_iff.mp h).cases_head with heq | ⟨e, he, -⟩
  · exact absurd heq hne
  · exact has_class_iff.mpr ⟨_, class?_of_mem_parents he⟩

/-- The parents of a class that is there stay. -/
theorem IsExtendedBy.parents (h : w.IsExtendedBy w') (hc : w.Has (.class c)) :
    (w'.getClass c).parents = (w.getClass c).parents := by
  obtain ⟨d, hd⟩ := has_class_iff.mp hc
  obtain ⟨axioms, hd'⟩ := h.classes c d hd
  rw [getClass_eq hd, getClass_eq hd', parents_append_restrictions]

/-- What is below another class stays there. -/
theorem IsExtendedBy.isSubclassOf (h : w.IsExtendedBy w') (hcd : w.isSubclassOf c d = true) :
    w'.isSubclassOf c d = true := by
  rw [isSubclassOf_iff] at hcd ⊢
  refine Relation.ReflTransGen.mono (fun a b hb => ?_) c d hcd
  rwa [h.parents (has_class_iff.mpr ⟨_, class?_of_mem_parents hb⟩)]

/-- A class that was there has not been put below another one. -/
theorem IsExtendedBy.isSubclassOf_iff (h : w.IsExtendedBy w') (hw : w.IsGrounded)
    (hc : w.Has (.class c)) : w'.isSubclassOf c d = true ↔ w.isSubclassOf c d = true := by
  refine ⟨fun hcd => ?_, h.isSubclassOf⟩
  rw [World.isSubclassOf_iff] at hcd ⊢
  -- the path does not leave what was there
  have hpath : w.Has (.class d) ∧
      Relation.ReflTransGen (fun a b => b ∈ (w.getClass a).parents) c d := by
    induction hcd with
    | refl => exact ⟨hc, .refl⟩
    | tail _ hb ih =>
      rw [h.parents ih.1] at hb
      exact ⟨hw.references _ (references_getClass w _ (mem_references_of_mem_parents hb)),
        ih.2.tail hb⟩
  exact hpath.2

/-- What another class is below is there. -/
theorem IsGrounded.has_of_isSubclassOf (hw : w.IsGrounded) (hne : c ≠ d)
    (h : w.isSubclassOf c d = true) : w.Has (.class d) := by
  rcases (World.isSubclassOf_iff.mp h).cases_tail with heq | ⟨e, -, hd⟩
  · exact absurd heq.symm hne
  · exact hw.references _ (references_getClass w _ (mem_references_of_mem_parents hd))

/-- A new class is put below others, and nothing else is. -/
theorem IsGrounded.isSubclassOf_of_push {new : Class} (hw : w.IsGrounded) (h : w.IsExtendedBy w')
    (hclasses : w'.classes = w.classes.push new) (hnew : c ≠ ⟨w.classes.size⟩) (hne : c ≠ d)
    (hcd : w'.isSubclassOf c d = true) : w.isSubclassOf c d = true := by
  have hlt : c.index < w'.classes.size := World.has_of_isSubclassOf hne hcd
  rw [hclasses, Array.size_push] at hlt
  have hc : c.index < w.classes.size := by
    have hindex : c.index ≠ w.classes.size := fun heq => hnew (by rw [← heq])
    omega
  exact (h.isSubclassOf_iff hw hc).mp hcd

/-! ### Main roles -/

open RelationConcepts

variable {associated : String → List ClassExpression → Prop} {m : ClassId} {generic : PropertyId}

/-- A property is the main role of a class.  It is named after the class, relates what is associated
with the class to the class and nothing else, and implies the property that all main roles imply. -/
structure IsMainRole (w : World) (associated : String → List ClassExpression → Prop)
    (generic : PropertyId) (c : ClassId) (p : PropertyId) : Prop where
  named : ∃ rest, (w.getClass c).name = "X_" ++ rest ∧ w.propertyNamed? ("X_has" ++ rest) = some p
  kind : (w.getProperty p).kind = .object
  domain : associated (w.getClass c).name (w.getProperty p).domain
  range : (w.getProperty p).range = .classes [.named c]
  parents : (w.getProperty p).parents = [generic]

/-- Main roles belong to the classes below the marker, and each of these has one. -/
structure HasMainRoles (w : World) (associated : String → List ClassExpression → Prop) (m : ClassId)
    (generic : PropertyId) : Prop where
  markerNamed : w.names.get? markerName = some (.class m)
  genericNamed : w.names.get? mainRoleName = some (.property generic)
  role : ∀ c, c ≠ m → w.isSubclassOf c m = true → ∃ p, w.IsMainRole associated generic c p
  concept : ∀ p, (w.getProperty p).parents ≠ [] →
    ∃ c, c ≠ m ∧ w.isSubclassOf c m = true ∧ w.IsMainRole associated generic c p

/-- A main role stays one. -/
theorem IsMainRole.mono (h : w.IsMainRole associated generic c p) (hkeep : w.IsExtendedBy w') :
    w'.IsMainRole associated generic c p := by
  obtain ⟨⟨rest, hname, hrole⟩, hkind, hdomain, hrange, hparents⟩ := h
  have hp : w.Has (.property p) :=
    has_property_of_rangeClasses (c := c) (by rw [Property.rangeClasses, hrange]; rfl)
  have hclass : (w'.getClass c).name = (w.getClass c).name := by
    cases hd : w.class? c with
    | none =>
      rw [getClass, hd] at hname
      exact absurd (String.append_eq_empty_iff.mp hname.symm).1 (by decide)
    | some d => exact hkeep.getClass_name (has_class_iff.mpr ⟨d, hd⟩)
  rw [← hkeep.getProperty hp] at hkind hdomain hrange hparents
  rw [← hclass] at hname hdomain
  exact ⟨⟨rest, hname, hkeep.propertyNamed? hrole⟩, hkind, hdomain, hrange, hparents⟩

/-- Main roles are complete as long as new concepts come with new roles. -/
theorem HasMainRoles.extend (h : w.HasMainRoles associated m generic) (hkeep : w.IsExtendedBy w')
    (hrole : ∀ c, c ≠ m → w'.isSubclassOf c m = true → w.isSubclassOf c m = true ∨
      ∃ p, w'.IsMainRole associated generic c p)
    (hconcept : ∀ p, (w'.getProperty p).parents ≠ [] → (w.getProperty p).parents ≠ [] ∨
      ∃ c, c ≠ m ∧ w'.isSubclassOf c m = true ∧ w'.IsMainRole associated generic c p) :
    w'.HasMainRoles associated m generic where
  markerNamed := hkeep.names _ _ h.markerNamed
  genericNamed := hkeep.names _ _ h.genericNamed
  role c hne hc := by
    rcases hrole c hne hc with hold | hnew
    · obtain ⟨p, hp⟩ := h.role c hne hold
      exact ⟨p, hp.mono hkeep⟩
    · exact hnew
  concept p hp := by
    rcases hconcept p hp with hold | hnew
    · obtain ⟨c, hne, hc, hcp⟩ := h.concept p hold
      exact ⟨c, hne, hkeep.isSubclassOf hc, hcp.mono hkeep⟩
    · exact hnew

end World

namespace LoadSession

open World RelationConcepts

variable {s s₁ s₂ s' : LoadSession} {associated : String → List ClassExpression → Prop}
  {names : List (String × String)} {d : Class} {c m : ClassId} {body : List (String × Node)}
  {t : Tree}

/-- Main roles are complete while loading; before the marker is declared, there are none. -/
structure HasMainRoles (associated : String → List ClassExpression → Prop) (s : LoadSession) :
    Prop where
  grounded : s.IsGrounded
  unmarked : s.concepts.marker = none → ∀ p, (s.world.getProperty p).parents = []
  marked : ∀ m, s.concepts.marker = some m → ∃ generic, s.concepts.mainRole = some generic ∧
    s.world.HasMainRoles associated m generic

/-- What keeps the hierarchies leaves main roles complete. -/
theorem HasMainRoles.of_keepsHierarchies {entries : List ClassId} (hs : s.HasMainRoles associated)
    (hnotes : KeepsHierarchies entries s s') (hsteps : s.LeadsTo names s') :
    s'.HasMainRoles associated where
  grounded := hsteps.isGrounded hs.grounded
  unmarked hnone p := by
    rw [hnotes.concepts] at hnone
    rw [hnotes.propertyParents]
    exact hs.unmarked hnone p
  marked m hm := by
    rw [hnotes.concepts] at hm ⊢
    obtain ⟨generic, hgeneric, h⟩ := hs.marked m hm
    refine ⟨generic, hgeneric, h.extend hsteps.isExtendedBy (fun c _ hc => .inl ?_)
      fun p hp => .inl ?_⟩
    · rw [World.isSubclassOf_iff] at hc ⊢
      simpa only [hnotes.classParents] using hc
    · rwa [hnotes.propertyParents] at hp

/-- The marker is declared once, and no class is below it by then. -/
theorem hasMainRoles_noteMarker (hs : s.HasMainRoles associated)
    (hadd : s.addClass d = .ok (s₁, c)) (hname : d.name = markerName)
    (h : s₁.noteMarker c = .ok s₂) (hsteps : s.LeadsTo names s₂) : s₂.HasMainRoles associated := by
  obtain ⟨rfl, hinsert, ⟨iri, hclasses⟩, hproperties, -⟩ := addClass_eq_ok hadd
  obtain ⟨⟨s₃, p⟩, haddProperty, h⟩ := exists_of_bind_eq_ok h
  obtain ⟨-, hinsert', ⟨iri', hproperties'⟩, hclasses', -⟩ := addProperty_eq_ok haddProperty
  obtain rfl := Except.ok.inj h
  rw [hname] at hinsert
  have hunmarked : ∀ p, (s.world.getProperty p).parents = [] := by
    refine hs.unmarked (Option.eq_none_iff_forall_ne_some.mpr fun m hm => ?_)
    obtain ⟨generic, -, hroles⟩ := hs.marked m hm
    have hnone := (Namespace.insert_eq_ok_iff.mp hinsert).1
    rw [hroles.markerNamed] at hnone
    cases hnone
  have hparents : ∀ p, (s₃.world.getProperty p).parents = [] := fun p => by
    rw [hproperties] at hproperties'
    rw [getProperty_of_push hproperties']
    split
    · rfl
    · exact hunmarked p
  refine ⟨hsteps.isGrounded hs.grounded, nofun, ?_⟩
  rintro _ ⟨⟩
  refine ⟨p, rfl, ?_, ?_, fun c hne hc => ?_, fun p hp => absurd (hparents p) hp⟩
  · refine Namespace.get?_mono hinsert' ?_
    rw [Namespace.get?_of_insert hinsert, if_pos rfl]
  · rw [Namespace.get?_of_insert hinsert', if_pos rfl]
  · -- the marker would have been there before
    have hold : s.world.isSubclassOf c _ = true := hs.grounded.world.isSubclassOf_of_push
      hsteps.isExtendedBy (hclasses'.trans hclasses) hne hne hc
    exact absurd (hs.grounded.world.has_of_isSubclassOf hne hold) (Nat.lt_irrefl _)

/-- A class that is not below the marker leaves main roles as they are. -/
theorem hasMainRoles_addClass (hs : s.HasMainRoles associated) (hadd : s.addClass d = .ok (s', c))
    (hbelow : ∀ m, s.concepts.marker = some m → ¬s'.world.isSubclassOf c m = true)
    (hsteps : s.LeadsTo names s') : s'.HasMainRoles associated := by
  obtain ⟨rfl, -, ⟨iri, hclasses⟩, hproperties, -, hconcepts⟩ := addClass_eq_ok hadd
  have hkept : ∀ p, s'.world.getProperty p = s.world.getProperty p := fun p => by
    rw [getProperty, property?, hproperties, getProperty, property?]
  refine ⟨hsteps.isGrounded hs.grounded, fun hnone p => ?_, fun m hm => ?_⟩
  · rw [hconcepts] at hnone
    rw [hkept, hs.unmarked hnone]
  · rw [hconcepts] at hm ⊢
    obtain ⟨generic, hgeneric, h⟩ := hs.marked m hm
    refine ⟨generic, hgeneric, h.extend hsteps.isExtendedBy (fun c hne hc => .inl ?_)
      fun p hp => .inl (by rwa [hkept] at hp)⟩
    have hnew : c ≠ ⟨s.world.classes.size⟩ := fun heq => hbelow m hm (heq ▸ hc)
    exact hs.grounded.world.isSubclassOf_of_push hsteps.isExtendedBy hclasses hnew hne hc

/-- The name of a main role is that of its concept with another beginning. -/
theorem exists_roleName {name : String} (h : namePart.toList <+: name.toList) :
    ∃ rest, name = "X_" ++ rest ∧ roleName name = "X_has" ++ rest := by
  obtain ⟨rest, hrest⟩ := h
  refine ⟨String.ofList rest, String.toList_inj.mp ?_, ?_⟩
  · have htoList : (String.ofList rest).toList = rest := String.toList_ofList
    rw [← hrest, String.toList_append, htoList]
    rfl
  · rw [roleName, ← hrest]
    rfl

/-- A class below the marker comes with its main role. -/
theorem hasMainRoles_addMainRole (hs : s.HasMainRoles associated)
    (hadd : s.addClass d = .ok (s₁, c)) (hm : s₁.concepts.marker = some m)
    (hbelow : s₁.world.isSubclassOf c m = true) (h : s₁.addMainRole d.name c body = .ok s₂)
    (hassociated : ∀ n domain, body.lookup "X_associatedWithClasses" = some n →
      n.items.mapM Node.toClassExpression = .ok domain → associated d.name domain)
    (hsteps : s.LeadsTo names s₂) (hlast : s₁.LeadsTo names s₂) : s₂.HasMainRoles associated := by
  obtain ⟨rfl, -, ⟨iri, hclasses⟩, hproperties, -, hconcepts⟩ := addClass_eq_ok hadd
  obtain ⟨hbegins, n, domain, p, hn, hdomain, haddProperty⟩ := exists_of_addMainRole h
  obtain ⟨rfl, hinsert, ⟨iri', hproperties'⟩, hclasses', -, hconcepts'⟩ :=
    addProperty_eq_ok haddProperty
  obtain ⟨rest, hname, hrole⟩ := exists_roleName hbegins
  refine ⟨hsteps.isGrounded hs.grounded, fun hnone => ?_, fun m' hm' => ?_⟩
  · rw [hconcepts', hm] at hnone
    cases hnone
  obtain rfl : m = m' := by rw [hconcepts', hm] at hm'; exact Option.some.inj hm'
  obtain ⟨generic, hgeneric, hroles⟩ := hs.marked m (by rw [← hconcepts, hm])
  refine ⟨generic, by rw [hconcepts', hconcepts, hgeneric], ?_⟩
  have hproperty : s₂.world.getProperty ⟨s₁.world.properties.size⟩ = _ :=
    (getProperty_of_push hproperties').trans (if_pos rfl)
  have hclass : s₂.world.getClass ⟨s.world.classes.size⟩ = _ :=
    (getClass_of_push (hclasses'.trans hclasses)).trans (if_pos rfl)
  have hmain : s₂.world.IsMainRole associated generic ⟨s.world.classes.size⟩
      ⟨s₁.world.properties.size⟩ := by
    refine ⟨⟨rest, ?_, ?_⟩, ?_, ?_, ?_, ?_⟩
    · rw [hclass, hname]
    · rw [propertyNamed?_eq_some_iff, ← hrole, Namespace.get?_of_insert hinsert, if_pos rfl]
    · rw [hproperty]
    · rw [hclass, hproperty]
      exact hassociated n domain hn hdomain
    · rw [hproperty]
    · rw [hproperty, hconcepts, hgeneric]
      rfl
  have hbelow₂ : s₂.world.isSubclassOf ⟨s.world.classes.size⟩ m = true :=
    hlast.isExtendedBy.isSubclassOf hbelow
  -- the marker was there before the concept
  have hne : (⟨s.world.classes.size⟩ : ClassId) ≠ m := by
    rintro rfl
    have hmarker : s.world.Has (.class ⟨s.world.classes.size⟩) :=
      hs.grounded.world.has_of_knows (.inr (.inl (.inl ⟨_, hroles.markerNamed⟩)))
    exact absurd hmarker (Nat.lt_irrefl _)
  refine hroles.extend hsteps.isExtendedBy (fun c hcm hc => ?_) fun p hp => ?_
  · by_cases hnew : c = ⟨s.world.classes.size⟩
    · exact .inr ⟨_, hnew ▸ hmain⟩
    · exact .inl (hs.grounded.world.isSubclassOf_of_push hsteps.isExtendedBy
        (hclasses'.trans hclasses) hnew hcm hc)
  · by_cases hnew : p = ⟨s₁.world.properties.size⟩
    · exact .inr ⟨_, hne, hbelow₂, hnew ▸ hmain⟩
    · rw [getProperty_of_push hproperties', if_neg hnew, getProperty, property?, hproperties] at hp
      exact .inl hp

/-- **The declaration of a class keeps main roles complete.** -/
theorem hasMainRoles_declareClass (hs : s.HasMainRoles associated)
    (hassociated : ∀ name inner body n domain, s.Declares t name inner body →
      body.lookup "X_associatedWithClasses" = some n →
      n.items.mapM Node.toClassExpression = .ok domain → associated name domain)
    (h : s.declareClass t = .ok s') : s'.HasMainRoles associated := by
  obtain ⟨d, inner, body, c, s₁, s₂, hdeclares, ⟨hadd, hadded⟩, ⟨hconcept, hnoted⟩, hproxy,
    hlast⟩ :=
    exists_leadsTo_of_declareClass [] h
  have hsteps : s.LeadsTo [] s₂ := hadded.trans hnoted
  suffices h₂ : s₂.HasMainRoles associated from
    h₂.of_keepsHierarchies (keepsHierarchies_addProxy hproxy) hlast
  have hconcepts : s₁.concepts = s.concepts := (addClass_eq_ok hadd).2.2.2.2.2
  rw [noteConcept] at hconcept
  split at hconcept
  · next hname => exact hasMainRoles_noteMarker hs hadd hname hconcept hsteps
  split at hconcept
  · next hnone =>
    obtain rfl := Except.ok.inj hconcept
    refine hasMainRoles_addClass hs hadd (fun m hm => ?_) hsteps
    rw [hconcepts, hm] at hnone
    cases hnone
  next m hm =>
  split at hconcept
  · next hbelow =>
    exact hasMainRoles_addMainRole hs hadd hm hbelow hconcept
      (fun n domain => hassociated d.name inner body n domain hdeclares) hsteps hnoted
  · next hbelow =>
    obtain rfl := Except.ok.inj hconcept
    refine hasMainRoles_addClass hs hadd (fun m' hm' => ?_) hsteps
    rw [hconcepts, hm'] at hm
    rwa [Option.some.inj hm]

/-! ### The marker -/

/-- Once there is a marker, it stays. -/
theorem isSome_marker_declareClass (hmarker : s.concepts.marker.isSome)
    (h : s.declareClass t = .ok s') : s'.concepts.marker.isSome := by
  obtain ⟨d, inner, body, c, s₁, s₂, hdeclares, -, hadd, hconcept, hproxy⟩ := declareClass_eq_ok h
  rw [(keepsHierarchies_addProxy hproxy).concepts]
  rw [← (addClass_eq_ok hadd).2.2.2.2.2] at hmarker
  rcases noteConcept_cases hconcept with rfl | h | h
  · exact hmarker
  · obtain ⟨⟨s₃, p⟩, -, h⟩ := exists_of_bind_eq_ok h
    rw [← Except.ok.inj h]
    rfl
  · obtain ⟨-, _, _, _, -, -, h⟩ := exists_of_addMainRole h
    rwa [← (addProperty_eq_ok h).2.2.2.2.2] at hmarker

/-- The declaration of the marker leaves one. -/
theorem isSome_marker_of_declareClass {inner : Tree}
    (h : s.declareClass (.mapping [(.string markerName, inner)]) = .ok s') :
    s'.concepts.marker.isSome := by
  obtain ⟨d, inner', body, c, s₁, s₂, hdeclares, -, hadd, hconcept, hproxy⟩ := declareClass_eq_ok h
  rw [(keepsHierarchies_addProxy hproxy).concepts]
  obtain ⟨hname, -⟩ := Prod.mk.inj (List.cons.inj (Tree.mapping.inj hdeclares.statement)).1
  rw [noteConcept, if_pos (Tree.string.inj hname).symm] at hconcept
  obtain ⟨⟨s₃, p⟩, -, hconcept⟩ := exists_of_bind_eq_ok hconcept
  rw [← Except.ok.inj hconcept]
  rfl

/-- A document that declares the marker has one in the end. -/
theorem isSome_marker_of_load {start : LoadSession} {statements : List (String × Tree)}
    (hdeclares : DeclaresClass statements markerName) (h : start.load statements = .ok s) :
    s.concepts.marker.isSome := by
  obtain ⟨keyword, body, inner, hstatement, ht⟩ := hdeclares
  obtain ⟨_, hmeets⟩ := exists_meetsClass h hstatement ht
  obtain ⟨s₁, s₂, items, after, hdeclare, hitems, hafter⟩ := hmeets.exists_declareClass h
  have hs₂ : s₂.concepts.marker.isSome :=
    invariant_of_foldlM (I := fun s : LoadSession => s.concepts.marker.isSome)
      (fun _ _ _ _ _ _ _ hs h => isSome_marker_declareClass hs h)
      (isSome_marker_of_declareClass hdeclare) hitems
  refine invariant_of_load (I := fun s => s.concepts.marker.isSome)
    (fun entries names s₁ s₂ hnotes _ hs => ?_)
    (fun _ _ _ _ h hs => isSome_marker_declareClass hs h) hs₂ hafter
  rw [hnotes.concepts]
  exact hs

/-- A class whose declaration adds a property is the marker or below it. -/
theorem properties_declareClass (h : s.declareClass t = .ok s') :
    ∃ name inner c, t = .mapping [(.string name, inner)] ∧
      s'.world.names.get? name = some (.class c) ∧
      (s'.world.properties = s.world.properties ∨ ∃ m, s'.concepts.marker = some m ∧
        s'.world.isSubclassOf c m = true) := by
  obtain ⟨d, inner, body, c, s₁, s₂, hdeclares, ⟨hadd, -⟩, ⟨hconcept, hnoted⟩, hproxy, hlast⟩ :=
    exists_leadsTo_of_declareClass [] h
  obtain ⟨-, hinsert, -, hproperties, -⟩ := addClass_eq_ok hadd
  have hkeep : s₁.world.IsExtendedBy s'.world := hnoted.isExtendedBy.trans hlast.isExtendedBy
  refine ⟨d.name, inner, c, hdeclares.statement, hkeep.names _ _ ?_, ?_⟩
  · rw [Namespace.get?_of_insert hinsert, if_pos rfl]
  have hmarker : s'.concepts.marker = s₂.concepts.marker := by
    rw [(keepsHierarchies_addProxy hproxy).concepts]
  rw [hmarker, properties_addProxy hproxy, ← hproperties]
  rw [noteConcept] at hconcept
  split at hconcept
  · obtain ⟨⟨s₃, p⟩, -, hconcept⟩ := exists_of_bind_eq_ok hconcept
    obtain rfl := Except.ok.inj hconcept
    exact .inr ⟨c, rfl, World.isSubclassOf_iff.mpr .refl⟩
  split at hconcept
  · exact .inl (by rw [Except.ok.inj hconcept])
  next m hm =>
  split at hconcept
  · next hbelow =>
    obtain ⟨-, _, _, _, -, -, hrole⟩ := exists_of_addMainRole hconcept
    refine .inr ⟨m, ?_, hkeep.isSubclassOf hbelow⟩
    rw [(addProperty_eq_ok hrole).2.2.2.2.2, hm]
  · exact .inl (by rw [Except.ok.inj hconcept])

/-! ### Documents -/

/-- Loading starts without main roles. -/
theorem hasMainRoles_start (settings : LoadSettings) (folder : Folder) (base : String)
    (statements : List (String × Tree)) :
    (start settings folder base statements).HasMainRoles associated where
  grounded := isGrounded_new _ _ _ _
  unmarked _ _ := rfl
  marked _ h := by cases h

variable {start : LoadSession} {statements : List (String × Tree)}

/-- The declaration of a class that loading comes to keeps main roles complete. -/
theorem hasMainRoles_of_meetsClass (s₁ : LoadSession) (t : Tree) (s₂ : LoadSession)
    (hmeets : MeetsClass start statements s₁ t) (h : s₁.declareClass t = .ok s₂)
    (hs : s₁.HasMainRoles (AssociatedBy start statements)) :
    s₂.HasMainRoles (AssociatedBy start statements) :=
  hasMainRoles_declareClass hs (fun _ inner body n _ hdeclares hn hdomain =>
    ⟨s₁, t, inner, body, n, hmeets, hdeclares, hn, hdomain⟩) h

/-- **Main roles are complete at the end of a document.** -/
theorem hasMainRoles_of_load (hstart : start.HasMainRoles (AssociatedBy start statements))
    (h : start.load statements = .ok s) : s.HasMainRoles (AssociatedBy start statements) :=
  invariant_of_load (fun _ _ _ _ hnotes hsteps hs =>
    hs.of_keepsHierarchies hnotes.toKeepsHierarchies hsteps)
    hasMainRoles_of_meetsClass hstart h

/-- A class of a document whose declaration adds a property is the marker or below it. -/
theorem MeetsClass.properties (hstart : start.HasMainRoles (AssociatedBy start statements))
    (h : start.load statements = .ok s') (hm : s'.concepts.marker = some m)
    (hmeets : MeetsClass start statements s t) : ∃ (s₁ : LoadSession) (name : String) (inner : Tree)
      (c : ClassId), s.declareClass t = .ok s₁ ∧ t = .mapping [(.string name, inner)] ∧
        s'.world.names.get? name = some (.class c) ∧
        (s₁.world.properties = s.world.properties ∨ s'.world.isSubclassOf c m = true) := by
  obtain ⟨s₁, _, _, _, hdeclare, -⟩ := hmeets.exists_declareClass h
  obtain ⟨name, inner, c, ht, hname, hadded⟩ := properties_declareClass hdeclare
  have hkeep : s₁.world.IsExtendedBy s'.world := hmeets.isExtendedBy h hdeclare
  refine ⟨s₁, name, inner, c, hdeclare, ht, hkeep.names _ _ hname, hadded.imp_right ?_⟩
  rintro ⟨m₁, hm₁, hbelow⟩
  -- both markers have the same name
  have hs : s.HasMainRoles (AssociatedBy start statements) :=
    hmeets.invariant (fun _ _ _ _ hnotes hsteps hs =>
      hs.of_keepsHierarchies hnotes.toKeepsHierarchies hsteps)
      hasMainRoles_of_meetsClass hstart
  obtain ⟨_, -, hroles₁⟩ := (hasMainRoles_of_meetsClass s t s₁ hmeets hdeclare hs).marked m₁ hm₁
  obtain ⟨_, -, hroles⟩ := (hasMainRoles_of_load hstart h).marked m hm
  have hsame := hkeep.names _ _ hroles₁.markerNamed
  rw [hroles.markerNamed] at hsame
  obtain rfl : m = m₁ := Entity.class.inj (Option.some.inj hsame)
  exact hkeep.isSubclassOf hbelow

end LoadSession

namespace World

open LoadSession RelationConcepts

variable {settings : LoadSettings} {folder : Folder} {base : String} {document : Tree}
  {statements : List (String × Tree)} {w : World}

/-- **Every relation concept of a document has its main role, and only the declaration of a relation
concept makes one.**  A class below the marker has a name that starts with `X_`, and the property of
the name with `X_has` in its place relates the classes that the declaration of the class associates
with it to the class, and implies the property that all main roles imply.  All properties that imply
another one are such roles, and the declaration of a class adds no property unless the class is the
marker or below it. -/
theorem mainRoles_of_load (h : load settings folder base document = .ok w)
    (hstatements : Shape.statements document = .ok statements)
    (hmarker : DeclaresClass statements markerName) :
    ∃ m generic, w.classNamed? markerName = some m ∧ w.propertyNamed? mainRoleName = some generic ∧
      (∀ c, c ≠ m → w.isSubclassOf c m = true → ∃ rest p, (w.getClass c).name = "X_" ++ rest ∧
        w.propertyNamed? ("X_has" ++ rest) = some p ∧ (w.getProperty p).kind = .object ∧
        (w.getProperty p).range = .classes [.named c] ∧
        AssociatedBy (start settings folder base statements) statements (w.getClass c).name
          (w.getProperty p).domain ∧
        w.isSubpropertyOf p generic = true) ∧
      (∀ p, (w.getProperty p).parents ≠ [] → ∃ c rest, c ≠ m ∧ w.isSubclassOf c m = true ∧
        (w.getClass c).name = "X_" ++ rest ∧ w.propertyNamed? ("X_has" ++ rest) = some p) ∧
      ∀ s t, MeetsClass (start settings folder base statements) statements s t →
        ∃ s' name inner c, s.declareClass t = .ok s' ∧ t = .mapping [(.string name, inner)] ∧
          w.classNamed? name = some c ∧
          (s'.world.properties = s.world.properties ∨ w.isSubclassOf c m = true) := by
  obtain ⟨last, hload, rfl⟩ := exists_load_start h hstatements
  have hstart : (start settings folder base statements).HasMainRoles
      (AssociatedBy (start settings folder base statements) statements) :=
    hasMainRoles_start settings folder base statements
  obtain ⟨m, hm⟩ := Option.isSome_iff_exists.mp (isSome_marker_of_load hmarker hload)
  obtain ⟨generic, -, hroles⟩ := (hasMainRoles_of_load hstart hload).marked m hm
  refine ⟨m, generic, ?_, propertyNamed?_eq_some_iff.mpr hroles.genericNamed, fun c hne hc => ?_,
    fun p hp => ?_, fun s t hmeets => ?_⟩
  · rw [classNamed?, lookup?_of_get? hroles.markerNamed]
  · obtain ⟨p, ⟨rest, hname, hrole⟩, hkind, hdomain, hrange, hparents⟩ := hroles.role c hne hc
    refine ⟨rest, p, hname, hrole, hkind, hrange, hdomain, isSubpropertyOf_iff.mpr (.single ?_)⟩
    rw [hparents]
    exact List.mem_singleton_self _
  · obtain ⟨c, hne, hc, ⟨rest, hname, hrole⟩, -⟩ := hroles.concept p hp
    exact ⟨c, rest, hne, hc, hname, hrole⟩
  · obtain ⟨s', name, inner, c, hdeclare, ht, hname, hadded⟩ := hmeets.properties hstart hload hm
    exact ⟨s', name, inner, c, hdeclare, ht, by rw [classNamed?, lookup?_of_get? hname], hadded⟩

/-! ### A library -/

/-- People borrow books, some of them for long.  Long loans are not declared to be relation concepts
themselves, they are loans. -/
def lendingStatements : List (String × Tree) := [
  ("owl_class", .object [("Person", .null)]),
  ("owl_class", .object [("X_RelationConcept", .null)]),
  ("multiple_owl_classes", .sequence [
    .object [("X_Loan", .object [
      ("SubClassOf", .string "X_RelationConcept"),
      ("X_associatedWithClasses", .sequence [.string "Person"])])],
    .object [("X_LongLoan", .object [
      ("SubClassOf", .sequence [.string "Person", .string "X_Loan"]),
      ("X_associatedWithClasses", .sequence [.string "Person", .string "X_Loan"])])]])]

/-- The document of these statements. -/
def lendingDocument : Tree :=
  .sequence (lendingStatements.map fun (keyword, body) => .object [(keyword, body)])

/-- The ontology of the document. -/
def lending : World :=
  (load {} {} "" lendingDocument).toOption.getD default

/-- Long loans have a main role of their own, and those who borrow for long, or lend further, are
related by it. -/
theorem mainRoles_of_load_lending :
    load {} {} "" lendingDocument = .ok lending ∧
      Shape.statements lendingDocument = .ok lendingStatements ∧
      DeclaresClass lendingStatements markerName ∧
      lending.isSubclassOf ⟨3⟩ ⟨1⟩ = true ∧ (lending.getClass ⟨3⟩).name = "X_LongLoan" ∧
      ∃ p generic, lending.propertyNamed? "X_hasLongLoan" = some p ∧
        (lending.getProperty p).range = .classes [.named ⟨3⟩] ∧
        (lending.getProperty p).domain = [.named ⟨0⟩, .named ⟨2⟩] ∧
        lending.propertyNamed? mainRoleName = some generic ∧
        lending.isSubpropertyOf p generic = true := by
  have hload : load {} {} "" lendingDocument = .ok lending := eq_ok_of_isSome (by decide +kernel)
  have hdeclares : DeclaresClass lendingStatements markerName :=
    ⟨"owl_class", _, .null, List.mem_cons_of_mem _ List.mem_cons_self, List.mem_cons_self⟩
  obtain ⟨hbelow, hname, hmarker⟩ : lending.isSubclassOf ⟨3⟩ ⟨1⟩ = true ∧
      (lending.getClass ⟨3⟩).name = "X_LongLoan" ∧
      lending.classNamed? markerName = some ⟨1⟩ := by
    decide +kernel
  obtain ⟨m, generic, hm, hgeneric, hroles, -⟩ := mainRoles_of_load hload rfl hdeclares
  obtain rfl : (⟨1⟩ : ClassId) = m := Option.some.inj (hmarker.symm.trans hm)
  obtain ⟨rest, p, hrest, hp, -, hrange, -, himplied⟩ := hroles ⟨3⟩ (by decide) hbelow
  obtain rfl : "LongLoan" = rest := (String.append_right_inj "X_").mp (hname.symm.trans hrest)
  have hdomain : ∀ p, lending.propertyNamed? "X_hasLongLoan" = some p →
      (lending.getProperty p).domain = [.named ⟨0⟩, .named ⟨2⟩] := by
    have hrole : lending.propertyNamed? "X_hasLongLoan" = some ⟨2⟩ ∧
        (lending.getProperty ⟨2⟩).domain = [.named ⟨0⟩, .named ⟨2⟩] := by
      decide +kernel
    intro p hp
    rw [← Option.some.inj (hrole.1.symm.trans hp), hrole.2]
  exact ⟨hload, rfl, hdeclares, hbelow, hname, p, generic, hp, hrange, hdomain p hp, hgeneric,
    himplied⟩

end World

end Ontology
