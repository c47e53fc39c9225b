import Ontology.Proofs.MainRoles

/-!
# Proxies of classes

A class can have a proxy, an individual that stands for it.  A flag in the declaration of the class
decides; a class without a flag leaves it to its first parent, which may have a flag or leave it to
its own first parent in turn.  Loading does not go up the hierarchy to find out.  It keeps the flag
of each class that has a proxy as an attribute, and looks up the attribute of the first parent only.

## Main definitions

* `Tree.proxyFlag?` — the flag in the body of a declaration.
* `World.Flagged`, `World.Defers` — the flag of a class of a document, and the first parent of a
  class without one.
* `LoadSession.AddsProxy` — the proxy of a class is all that is added to the individuals.
* `LoadSession.PassesOn` — the attribute of a class is one that classes below it take over.
* `LoadSession.Settles` — the declaration of a class settles whether it has a proxy.
* `World.FollowsFlags` — what a class passes on goes by its flag, or by its first parent.

## Main results

* `LoadSession.exists_settles_declareClass` — every declaration of a class settles it, by the flag
  and the attribute of the first parent.
* `LoadSession.followsFlags_of_load` — **attributes follow the flags of a document.**
* `World.FollowsFlags.iff_exists` — what goes by the flags comes from the nearest flag above.
* `World.proxies_of_load` — **a class has a proxy if and only if its flag asks for one, or the
  nearest flag above it does so for classes below.**
-/

namespace Ontology

open LoadSession

/-! ### Flags -/

/-- The flag for a proxy in the body of a declaration; null is none. -/
def Tree.proxyFlag? (inner : Tree) : Option Tree :=
  (Tree.lookup? inner.entries proxyKey).filter (· ≠ .null)

namespace World

variable {w w' : World} {statements : List (String × Tree)} {c d : ClassId} {flag : Option Tree}

/-- A statement of a document declares a class with a flag, or without one. -/
def Flagged (w : World) (statements : List (String × Tree)) (c : ClassId) (flag : Option Tree) :
    Prop :=
  ∃ keyword body name inner, (keyword, body) ∈ statements ∧
    .mapping [(.string name, inner)] ∈ classItems keyword body ∧ w.classNamed? name = some c ∧
    inner.proxyFlag? = flag

/-- A class without a flag leaves its proxy to its first parent. -/
def Defers (w : World) (statements : List (String × Tree)) (c d : ClassId) : Prop :=
  w.Flagged statements c none ∧ (w.getClass c).isA.head? = some (.named d)

/-- The first parent of a class that is there stays the first one. -/
theorem IsExtendedBy.firstParent_iff (h : w.IsExtendedBy w') (hc : w.Has (.class c)) :
    (w'.getClass c).isA.head? = some (.named d) ↔ (w.getClass c).isA.head? = some (.named d) := by
  obtain ⟨old, hold⟩ := has_class_iff.mp hc
  obtain ⟨axioms, hnew⟩ := h.classes c old hold
  rw [getClass_eq hold, getClass_eq hnew]
  cases hisA : old.isA with
  | cons e rest => rfl
  | nil =>
    -- an axiom that is added later is a restriction
    cases axioms with
    | nil => rfl
    | cons r rest => simp [Restriction.toExpression]

/-- The keyword for proxies is read as it is written. -/
theorem lookup_proxyKey_of_readKeywords {entries : List (Tree × Tree)} {body : List (String × Node)}
    (h : w.readKeywords entries = .ok body) :
    body.lookup proxyKey = (Tree.lookup? entries proxyKey).map .raw := by
  rcases lookup_of_readKeywords h proxyKey with ⟨hnone, hbody⟩ | ⟨t, n, ht, hn, happly⟩
  · rw [hnone, hbody]
    rfl
  · have hverbatim : w.applyKeyword proxyKey t = .ok (.raw t) := by
      have hreading : Reading.ofKeyword? proxyKey = some .verbatim := by decide
      cases t <;> simp [applyKeyword, scalarBelow, hreading]
    rw [ht, hn, Except.ok.inj (happly.symm.trans hverbatim)]
    rfl

end World

namespace LoadSession

open World

variable {s s' s₁ s₂ : LoadSession} {name : String} {t inner : Tree} {c d : ClassId}
  {body : List (String × Node)} {flag : ProxyFlag}

/-- One individual has been added, named after a class and with the class as its first type. -/
structure AddsProxy (s s' : LoadSession) (name : String) (c : ClassId) : Prop where
  named : s'.world.names.get? ("i" ++ name) = some (.individual ⟨s.world.individuals.size⟩)
  individuals : ∃ iri, s'.world.individuals =
    s.world.individuals.push { name := "i" ++ name, iri, isA := [.named c] }

/-- Classes below a class take its proxy over. -/
def PassesOn (s : LoadSession) (c : ClassId) : Prop :=
  s.world.names.attribute? (.class c) proxyKey = some "recursive"

/-- A class takes over what its first parent passes on. -/
theorem inherited_iff : (((s.world.getClass c).isA.head?.bind ClassExpression.named?).bind fun d =>
      s.world.names.attribute? (.class d) proxyKey) = some "recursive" ↔
    ∃ d, (s.world.getClass c).isA.head? = some (.named d) ∧ s.PassesOn d := by
  constructor
  · intro h
    obtain ⟨d, hd, hpasses⟩ := Option.bind_eq_some_iff.mp h
    obtain ⟨e, he, hnamed⟩ := Option.bind_eq_some_iff.mp hd
    rw [ClassExpression.named?_eq_some_iff.mp hnamed] at he
    exact ⟨d, he, hpasses⟩
  · rintro ⟨d, hd, hpasses⟩
    rw [hd]
    exact hpasses

/-- Without a flag the first parent decides. -/
theorem proxyFlag_of_none (hbody : body.lookup proxyKey = none ∨
      body.lookup proxyKey = some (.raw .null)) (h : s.proxyFlag c body = .ok flag) :
    flag ≠ .present ∧ (flag = .recursive ↔
      ∃ d, (s.world.getClass c).isA.head? = some (.named d) ∧ s.PassesOn d) := by
  rw [← inherited_iff]
  have hflag : (if ((s.world.getClass c).isA.head?.bind ClassExpression.named?).bind (fun d =>
      s.world.names.attribute? (.class d) proxyKey) = some "recursive" then ProxyFlag.recursive
      else .absent) = flag := by
    rw [proxyFlag] at h
    rcases hbody with hbody | hbody <;>
    · rw [hbody] at h
      exact Except.ok.inj h
  rw [← hflag]
  split
  · next hinherited => exact ⟨nofun, iff_of_true rfl hinherited⟩
  · next hinherited => exact ⟨nofun, iff_of_false nofun hinherited⟩

/-- A flag has one of four values. -/
theorem proxyFlag_of_some (hbody : body.lookup proxyKey = some (.raw t)) (hnull : t ≠ .null)
    (h : s.proxyFlag c body = .ok flag) :
    (t = .bool false ∧ flag = .absent) ∨ (t = .bool true ∧ flag = .present) ∨
      (t = .string "True" ∧ flag = .present) ∨ (t = .string "recursive" ∧ flag = .recursive) := by
  rw [proxyFlag, hbody] at h
  split at h
  · next hnone => cases hnone
  · next heq =>
    cases heq
    exact absurd rfl hnull
  · next heq =>
    cases heq
    exact .inl ⟨rfl, (Except.ok.inj h).symm⟩
  · next heq =>
    cases heq
    exact .inr (.inl ⟨rfl, (Except.ok.inj h).symm⟩)
  · next heq =>
    cases heq
    exact .inr (.inr (.inl ⟨rfl, (Except.ok.inj h).symm⟩))
  · next heq =>
    cases heq
    exact .inr (.inr (.inr ⟨rfl, (Except.ok.inj h).symm⟩))
  · cases h

/-- **The flag in a body decides, and the first parent where there is none.** -/
theorem proxyFlag_eq_ok (hbody : s.world.readKeywords inner.entries = .ok body)
    (h : s₁.proxyFlag c body = .ok flag) :
    (flag = .present ↔ inner.proxyFlag? = some (.bool true) ∨
      inner.proxyFlag? = some (.string "True")) ∧
    (flag = .recursive ↔ inner.proxyFlag? = some (.string "recursive") ∨
      inner.proxyFlag? = none ∧ ∃ d, (s₁.world.getClass c).isA.head? = some (.named d) ∧
        s₁.PassesOn d) := by
  have hlookup := lookup_proxyKey_of_readKeywords hbody
  cases hflag : inner.proxyFlag? with
  | none =>
    -- there is nothing, or null
    have hsilent : body.lookup proxyKey = none ∨ body.lookup proxyKey = some (.raw .null) := by
      rw [Tree.proxyFlag?, Option.filter_eq_none_iff] at hflag
      rw [hlookup]
      cases hentry : Tree.lookup? inner.entries proxyKey with
      | none => exact .inl rfl
      | some t => exact .inr (by simpa using hflag t hentry)
    obtain ⟨hpresent, hrecursive⟩ := proxyFlag_of_none hsilent h
    simpa [hpresent] using hrecursive
  | some t =>
    obtain ⟨hentry, hnull⟩ := Option.filter_eq_some_iff.mp hflag
    rw [hentry] at hlookup
    rcases proxyFlag_of_some hlookup (of_decide_eq_true hnull) h with
      ⟨rfl, rfl⟩ | ⟨rfl, rfl⟩ | ⟨rfl, rfl⟩ | ⟨rfl, rfl⟩ <;> simp

/-! ### Declarations -/

/-- What makes a class a relation concept is a property, and no more. -/
theorem keeps_noteConcept (h : s.noteConcept name c body = .ok s') :
    s'.world.classes = s.world.classes ∧ s'.world.individuals = s.world.individuals ∧
      s'.world.names.attributes = s.world.names.attributes := by
  rcases noteConcept_cases h with rfl | h | h
  · exact ⟨rfl, rfl, rfl⟩
  · obtain ⟨⟨s₁, p⟩, hadd, h⟩ := exists_of_bind_eq_ok h
    obtain ⟨-, hinsert, -, hclasses, hindividuals, -⟩ := addProperty_eq_ok hadd
    rw [← Except.ok.inj h]
    exact ⟨hclasses, hindividuals, Namespace.attributes_of_insert hinsert⟩
  · obtain ⟨-, _, _, _, -, -, hadd⟩ := exists_of_addMainRole h
    obtain ⟨-, hinsert, -, hclasses, hindividuals, -⟩ := addProperty_eq_ok hadd
    exact ⟨hclasses, hindividuals, Namespace.attributes_of_insert hinsert⟩

theorem ProxyFlag.attribute?_eq_none_iff : flag.attribute? = none ↔ flag = .absent := by
  cases flag <;> simp [ProxyFlag.attribute?]

/-- The attribute that a flag leaves at a class, with its key. -/
def ProxyFlag.row (flag : ProxyFlag) (c : ClassId) : List ((Entity × String) × String) :=
  (flag.attribute?.map fun value => ((.class c, proxyKey), value)).toList

/-- A flag leaves an attribute and adds a proxy, or does neither. -/
theorem exists_of_addProxy (h : s.addProxy c body = .ok s') : ∃ flag,
    s.proxyFlag c body = .ok flag ∧ s'.world.classes = s.world.classes ∧
      s'.world.names.attributes = flag.row c ++ s.world.names.attributes ∧
      if flag = .absent then s'.world.individuals = s.world.individuals
      else s.AddsProxy s' (s.world.getClass c).name c := by
  obtain ⟨flag, hflag, ⟨hnone, rfl⟩ | ⟨value, i, hvalue, hadd⟩⟩ := addProxy_eq_ok h
  · refine ⟨flag, hflag, rfl, ?_, ?_⟩
    · rw [ProxyFlag.row, hnone]
      rfl
    · rw [if_pos (ProxyFlag.attribute?_eq_none_iff.mp hnone)]
  · obtain ⟨rfl, hinsert, hpush, hclasses, -⟩ := addIndividual_eq_ok hadd
    refine ⟨flag, hflag, hclasses, ?_, ?_⟩
    · rw [ProxyFlag.row, hvalue]
      exact Namespace.attributes_of_insert hinsert
    · have hpresent : flag ≠ .absent := by
        rw [ne_eq, ← ProxyFlag.attribute?_eq_none_iff, hvalue]
        exact Option.some_ne_none value
      rw [if_neg hpresent]
      refine ⟨?_, hpush⟩
      rw [Namespace.get?_of_insert hinsert, if_pos rfl]

/-- The declaration of a class settles whether it has a proxy. -/
structure Settles (s s' : LoadSession) (name : String) (inner : Tree) (c : ClassId)
    (flag : ProxyFlag) : Prop where
  place : c = ⟨s.world.classes.size⟩
  has : s'.world.Has (.class c)
  named : s'.world.names.get? name = some (.class c)
  present : flag = .present ↔ inner.proxyFlag? = some (.bool true) ∨
    inner.proxyFlag? = some (.string "True")
  recursive : flag = .recursive ↔ inner.proxyFlag? = some (.string "recursive") ∨
    inner.proxyFlag? = none ∧ ∃ d, (s'.world.getClass c).isA.head? = some (.named d) ∧ s.PassesOn d
  attributes : s'.world.names.attributes = flag.row c ++ s.world.names.attributes
  individuals : if flag = .absent then s'.world.individuals = s.world.individuals
    else s.AddsProxy s' name c

/-- **Every declaration of a class settles whether it has a proxy,** by its flag and the attribute
of its first parent. -/
theorem exists_settles_declareClass (h : s.declareClass t = .ok s') : ∃ name inner c flag,
    t = .mapping [(.string name, inner)] ∧ s.Settles s' name inner c flag := by
  obtain ⟨new, inner, body, c, s₁, s₂, hdeclares, ⟨hadd, -⟩, ⟨hconcept, hnoted⟩, hproxy, hlast⟩ :=
    exists_leadsTo_of_declareClass [] h
  obtain ⟨rfl, hinsert, ⟨iri, hpush⟩, -, hold, -⟩ := addClass_eq_ok hadd
  obtain ⟨hclasses, hindividuals, hattributes⟩ := keeps_noteConcept hconcept
  rw [hold] at hindividuals
  rw [Namespace.attributes_of_insert hinsert] at hattributes
  rw [hpush] at hclasses
  obtain ⟨flag, hflag, hclasses', hattributes', hindividuals'⟩ := exists_of_addProxy hproxy
  obtain ⟨hpresent, hrecursive⟩ := proxyFlag_eq_ok hdeclares.read hflag
  have hnew : s₂.world.getClass ⟨s.world.classes.size⟩ = { new with iri } :=
    (getClass_of_push hclasses).trans (if_pos rfl)
  have hpasses : ∀ d, s₂.PassesOn d ↔ s.PassesOn d := by
    intro d
    rw [PassesOn, PassesOn, Namespace.attribute?, Namespace.attribute?, hattributes]
  refine ⟨new.name, inner, ⟨s.world.classes.size⟩, flag, hdeclares.statement, rfl, ?_, ?_, hpresent,
    ?_, by rw [hattributes', hattributes], ?_⟩
  · change s.world.classes.size < s'.world.classes.size
    rw [hclasses', hclasses, Array.size_push]
    exact Nat.lt_succ_self _
  · refine (hnoted.isExtendedBy.trans hlast.isExtendedBy).names _ _ ?_
    rw [Namespace.get?_of_insert hinsert, if_pos rfl]
  · simpa only [getClass, class?, hclasses', hpasses] using hrecursive
  · by_cases habsent : flag = .absent
    · rw [if_pos habsent] at hindividuals' ⊢
      rw [hindividuals', hindividuals]
    · rw [if_neg habsent, hnew] at hindividuals'
      rw [if_neg habsent]
      obtain ⟨hnamed, hadded⟩ := hindividuals'
      rw [hindividuals] at hnamed hadded
      exact ⟨hnamed, hadded⟩

/-- The class is a new one. -/
theorem Settles.ne_of_has (h : s.Settles s' name inner c flag) (hd : s.world.Has (.class d)) :
    d ≠ c := by
  rintro rfl
  rw [h.place] at hd
  exact Nat.lt_irrefl _ hd

/-- A flag either adds a proxy or adds nothing. -/
theorem Settles.addsProxy_iff (h : s.Settles s' name inner c flag) :
    s.AddsProxy s' name c ↔ flag = .present ∨ flag = .recursive := by
  have hindividuals := h.individuals
  cases flag with
  | absent =>
    rw [if_pos rfl] at hindividuals
    refine iff_of_false (fun hadds => ?_) (by simp)
    obtain ⟨iri, hpush⟩ := hadds.individuals
    have hsize : s.world.individuals.size = s.world.individuals.size + 1 := by
      conv_lhs => rw [← hindividuals, hpush, Array.size_push]
    omega
  | present | recursive =>
    rw [if_neg (by decide)] at hindividuals
    exact iff_of_true hindividuals (by simp)

/-- A proxy stays, and the class stays its first type. -/
theorem AddsProxy.exists_individual {w : World} (h : s.AddsProxy s' name c)
    (hkeep : s'.world.IsExtendedBy w) : ∃ i, w.individualNamed? ("i" ++ name) = some i ∧
      (w.getIndividual i).isA.head? = some (.named c) := by
  obtain ⟨iri, hpush⟩ := h.individuals
  have hproxy : s'.world.individual? ⟨s.world.individuals.size⟩ =
      some { name := "i" ++ name, iri, isA := [.named c] } := by
    rw [individual?, hpush, Array.getElem?_push_size]
  obtain ⟨axioms, facts, hkept⟩ := hkeep.individuals _ _ hproxy
  refine ⟨⟨s.world.individuals.size⟩, ?_, ?_⟩
  · rw [individualNamed?, lookup?_of_get? (hkeep.names _ _ h.named)]
  · rw [getIndividual, hkept]
    rfl

/-- A declaration leaves an attribute at no other class. -/
theorem Settles.attribute?_of_ne (h : s.Settles s' name inner c flag) (hne : d ≠ c) :
    s'.world.names.attribute? (.class d) proxyKey =
      s.world.names.attribute? (.class d) proxyKey := by
  rw [Namespace.attribute?, Namespace.attribute?, h.attributes, ProxyFlag.row]
  cases flag.attribute? with
  | none => rfl
  | some value =>
    have hkey : ((Entity.class d, proxyKey) == (Entity.class c, proxyKey)) = false := by
      simpa using hne
    simp [List.lookup_cons, hkey]

/-- A class that had no attribute has the one of its flag. -/
theorem Settles.attribute?_self (h : s.Settles s' name inner c flag)
    (hnew : s.world.names.attribute? (.class c) proxyKey = none) :
    s'.world.names.attribute? (.class c) proxyKey = flag.attribute? := by
  rw [Namespace.attribute?] at hnew ⊢
  rw [h.attributes, ProxyFlag.row]
  cases flag.attribute? with
  | none => exact hnew
  | some value => simp

/-! ### Documents -/

variable {start : LoadSession} {statements : List (String × Tree)}

/-- Only classes that have been declared have attributes. -/
def KeepsFlags (start : LoadSession) (statements : List (String × Tree)) (s : LoadSession) : Prop :=
  ∀ c value, s.world.names.attribute? (.class c) proxyKey = some value →
    s.world.Has (.class c) ∧ ∃ s₀ t, MeetsClass start statements s₀ t ∧ c = ⟨s₀.world.classes.size⟩

/-- Steps that set no attribute keep this. -/
theorem KeepsFlags.of_notesEntries {entries : List ClassId} {names : List (String × String)}
    (hs : KeepsFlags start statements s) (hnotes : NotesEntries entries s s')
    (hsteps : s.LeadsTo names s') : KeepsFlags start statements s' := by
  intro c value hvalue
  rw [Namespace.attribute?, hnotes.attributes] at hvalue
  obtain ⟨hc, hmeets⟩ := hs c value hvalue
  exact ⟨hsteps.isExtendedBy.has hc, hmeets⟩

/-- So does the declaration of a class, which is one that loading comes to. -/
theorem KeepsFlags.declareClass (hs : KeepsFlags start statements s)
    (hmeets : MeetsClass start statements s t) (h : s.declareClass t = .ok s') :
    KeepsFlags start statements s' := by
  obtain ⟨name, inner, new, flag, -, hsettles⟩ := exists_settles_declareClass h
  intro c value hvalue
  by_cases hc : c = new
  · subst hc
    exact ⟨hsettles.has, s, t, hmeets, hsettles.place⟩
  · have hsteps : s.LeadsTo [] s' := leadsTo_declareClass h
    rw [hsettles.attribute?_of_ne hc] at hvalue
    obtain ⟨hold, hdeclared⟩ := hs c value hvalue
    exact ⟨hsteps.isExtendedBy.has hold, hdeclared⟩

/-- A class is there, with an attribute or without one. -/
def HasAttribute (s : LoadSession) (c : ClassId) (value : Option String) : Prop :=
  s.world.Has (.class c) ∧ s.world.names.attribute? (.class c) proxyKey = value

/-- Steps that set no attribute leave every class with the one it has. -/
theorem HasAttribute.of_notesEntries {entries : List ClassId} {names : List (String × String)}
    {value : Option String} (hs : s.HasAttribute c value) (hnotes : NotesEntries entries s s')
    (hsteps : s.LeadsTo names s') : s'.HasAttribute c value := by
  refine ⟨hsteps.isExtendedBy.has hs.1, ?_⟩
  rw [Namespace.attribute?, hnotes.attributes]
  exact hs.2

/-- So does the declaration of another class. -/
theorem HasAttribute.declareClass {value : Option String} (hs : s.HasAttribute c value)
    (h : s.declareClass t = .ok s') : s'.HasAttribute c value := by
  obtain ⟨name, inner, new, flag, -, hsettles⟩ := exists_settles_declareClass h
  have hsteps : s.LeadsTo [] s' := leadsTo_declareClass h
  have hne : c ≠ new := hsettles.ne_of_has hs.1
  exact ⟨hsteps.isExtendedBy.has hs.1, (hsettles.attribute?_of_ne hne).trans hs.2⟩

/-- The attribute of a class stays as its declaration has left it. -/
theorem MeetsClass.attribute?_eq (hmeets : MeetsClass start statements s t)
    (hload : start.load statements = .ok s') (hdeclare : s.declareClass t = .ok s₁)
    (hc : s₁.world.Has (.class c)) : s'.world.names.attribute? (.class c) proxyKey =
      s₁.world.names.attribute? (.class c) proxyKey := by
  obtain ⟨_, s₂, items, after, hdeclare', hitems, hafter⟩ := hmeets.exists_declareClass hload
  obtain rfl := Except.ok.inj (hdeclare.symm.trans hdeclare')
  obtain ⟨value, hvalue⟩ : ∃ value,
      s₁.world.names.attribute? (.class c) proxyKey = value := ⟨_, rfl⟩
  have hs₂ : s₂.HasAttribute c value :=
    invariant_of_foldlM (I := fun s => s.HasAttribute c value)
      (fun _ _ _ _ _ _ _ hs h => hs.declareClass h) ⟨hc, hvalue⟩ hitems
  have hs' : s'.HasAttribute c value :=
    invariant_of_load (I := fun s => s.HasAttribute c value)
      (fun _ _ _ _ hnotes hsteps hs => hs.of_notesEntries hnotes hsteps)
      (fun _ _ _ _ h hs => hs.declareClass h) hs₂ hafter
  rw [hs'.2, hvalue]

/-- Where loading comes to a declaration, only classes that have been declared have attributes. -/
theorem MeetsClass.keepsFlags (hmeets : MeetsClass start statements s t)
    (hstart : KeepsFlags start statements start) : KeepsFlags start statements s :=
  hmeets.invariant (fun _ _ _ _ hnotes hsteps hs => hs.of_notesEntries hnotes hsteps)
    (fun _ _ _ hmeets h hs => hs.declareClass hmeets h) hstart

/-- **In the end the attribute of a class is that of its flag, or that of its first parent if it has
no flag.** -/
theorem MeetsClass.passesOn_iff (hmeets : MeetsClass start statements s t)
    (hstart : KeepsFlags start statements start) (hgrounded : start.IsGrounded)
    (hload : start.load statements = .ok s') (hdeclare : s.declareClass t = .ok s₁)
    (hsettles : s.Settles s₁ name inner c flag) :
    (s'.PassesOn c ↔ flag = .recursive) ∧
    (s'.PassesOn c ↔ inner.proxyFlag? = some (.string "recursive") ∨
      inner.proxyFlag? = none ∧ ∃ d, (s'.world.getClass c).isA.head? = some (.named d) ∧
        s'.PassesOn d) := by
  have hkeep : s₁.world.IsExtendedBy s'.world := hmeets.isExtendedBy hload hdeclare
  have hnew : s.world.names.attribute? (.class c) proxyKey = none := by
    refine Option.eq_none_iff_forall_ne_some.mpr fun value hvalue => ?_
    exact hsettles.ne_of_has (hmeets.keepsFlags hstart c value hvalue).1 rfl
  have hself : s'.PassesOn c ↔ flag = .recursive := by
    rw [PassesOn, hmeets.attribute?_eq hload hdeclare hsettles.has, hsettles.attribute?_self hnew]
    cases flag <;> simp [ProxyFlag.attribute?]
  -- the first parent has been declared before
  have hparent : ∀ d, (s'.world.getClass c).isA.head? = some (.named d) →
      (s'.PassesOn d ↔ s.PassesOn d) := by
    intro d hd
    obtain ⟨names, hsteps⟩ := exists_leadsTo_of_load hload
    have hs' : s'.world.IsGrounded := (hsteps.isGrounded hgrounded).world
    have hlt : d.index < c.index := hs'.parents_class (Class.mem_parents.mpr (List.mem_of_head? hd))
    have hne : d ≠ c := fun heq => Nat.lt_irrefl _ (heq ▸ hlt)
    rw [PassesOn, PassesOn, hmeets.attribute?_eq hload hdeclare (hlt.trans hsettles.has),
      hsettles.attribute?_of_ne hne]
  refine ⟨hself, hself.trans (hsettles.recursive.trans (or_congr_right
    (and_congr_right fun _ => exists_congr fun d => ?_)))⟩
  rw [← hkeep.firstParent_iff hsettles.has]
  exact and_congr_right fun hd => (hparent d hd).symm

/-- A class of a document is declared with the flag that it has in the document. -/
theorem exists_meetsClass_of_flagged {flag : Option Tree} (hload : start.load statements = .ok s')
    (h : s'.world.Flagged statements c flag) : ∃ s s₁ t name inner proxy,
      MeetsClass start statements s t ∧ s.declareClass t = .ok s₁ ∧
      s.Settles s₁ name inner c proxy ∧ inner.proxyFlag? = flag := by
  obtain ⟨keyword, body, name, inner, hstatement, hitem, hname, hflag⟩ := h
  obtain ⟨s, hmeets⟩ := exists_meetsClass hload hstatement hitem
  obtain ⟨s₁, _, _, _, hdeclare, -⟩ := hmeets.exists_declareClass hload
  obtain ⟨name', inner', d, proxy, ht, hsettles⟩ := exists_settles_declareClass hdeclare
  obtain ⟨hname', rfl⟩ := Prod.mk.inj (List.cons.inj (Tree.mapping.inj ht)).1
  obtain rfl := Tree.string.inj hname'
  have hkept := (hmeets.isExtendedBy hload hdeclare).names _ _ hsettles.named
  rw [classNamed?, lookup?_of_get? hkept] at hname
  obtain rfl := Option.some.inj hname
  exact ⟨s, s₁, _, name, inner, proxy, hmeets, hdeclare, hsettles, hflag⟩

/-! ### Hierarchies -/

end LoadSession

namespace World

variable {w : World} {statements : List (String × Tree)} {P : ClassId → Prop} {c d : ClassId}

/-- What a class passes on depends on its flag, and on its first parent if it has none. -/
def FollowsFlags (w : World) (statements : List (String × Tree)) (P : ClassId → Prop) : Prop :=
  ∀ c flag, w.Flagged statements c flag → (P c ↔ flag = some (.string "recursive") ∨
    flag = none ∧ ∃ d, (w.getClass c).isA.head? = some (.named d) ∧ P d)

theorem FollowsFlags.iff_of_defers (h : w.FollowsFlags statements P)
    (hdefers : w.Defers statements c d) : P c ↔ P d := by
  obtain ⟨hnone, hparent⟩ := hdefers
  rw [h c none hnone]
  constructor
  · rintro (hflag | ⟨-, e, he, hP⟩)
    · cases hflag
    · rw [hparent] at he
      cases he
      exact hP
  · exact fun hP => .inr ⟨rfl, d, hparent, hP⟩

/-- All classes on the way up to a flag agree with it. -/
theorem FollowsFlags.iff_of_reflTransGen (h : w.FollowsFlags statements P)
    (hup : Relation.ReflTransGen (w.Defers statements) c d) : P c ↔ P d := by
  induction hup with
  | refl => rfl
  | tail _ hdefers ih => exact ih.trans (h.iff_of_defers hdefers)

/-- The way up to a flag ends, as first parents are older. -/
theorem FollowsFlags.iff_exists (h : w.FollowsFlags statements P) (hw : w.IsGrounded)
    (hdeclared : ∀ c, P c → ∃ flag, w.Flagged statements c flag) :
    P c ↔ ∃ d, Relation.ReflTransGen (w.Defers statements) c d ∧
      w.Flagged statements d (some (.string "recursive")) := by
  constructor
  · induction hn : c.index using Nat.strong_induction_on generalizing c with
    | _ n ih =>
      intro hP
      obtain ⟨flag, hflag⟩ := hdeclared c hP
      rcases (h c flag hflag).mp hP with rfl | ⟨rfl, d, hparent, hPd⟩
      · exact ⟨c, .refl, hflag⟩
      · have hlt : d.index < c.index :=
          hw.parents_class (Class.mem_parents.mpr (List.mem_of_head? hparent))
        obtain ⟨e, hup, he⟩ := ih d.index (hn ▸ hlt) rfl hPd
        exact ⟨e, .head ⟨hflag, hparent⟩ hup, he⟩
  · rintro ⟨d, hup, hd⟩
    exact (h.iff_of_reflTransGen hup).mpr ((h d _ hd).mpr (.inl rfl))

end World

namespace LoadSession

variable {start s s₁ s' : LoadSession} {statements : List (String × Tree)} {name : String}
  {t inner : Tree} {c : ClassId} {flag : ProxyFlag}

/-- A declaration that loading comes to is one of the document. -/
theorem MeetsClass.flagged (hmeets : MeetsClass start statements s t)
    (hload : start.load statements = .ok s') (hdeclare : s.declareClass t = .ok s₁)
    (ht : t = .mapping [(.string name, inner)]) (hsettles : s.Settles s₁ name inner c flag) :
    s'.world.Flagged statements c inner.proxyFlag? := by
  have hkept := (hmeets.isExtendedBy hload hdeclare).names _ _ hsettles.named
  obtain ⟨before, keyword, body, after, done, items, -, rfl, -, hitems, -⟩ := hmeets
  refine ⟨keyword, body, name, inner, ?_, ?_, ?_, rfl⟩
  · exact List.mem_append_right _ List.mem_cons_self
  · rw [hitems, ← ht]
    exact List.mem_append_right _ List.mem_cons_self
  · rw [World.classNamed?, World.lookup?_of_get? hkept]

/-- **Attributes follow the flags of a document.** -/
theorem followsFlags_of_load (hstart : KeepsFlags start statements start)
    (hgrounded : start.IsGrounded) (hload : start.load statements = .ok s') :
    s'.world.FollowsFlags statements s'.PassesOn := by
  intro c flag hflagged
  obtain ⟨s, s₁, t, name, inner, proxy, hmeets, hdeclare, hsettles, rfl⟩ :=
    exists_meetsClass_of_flagged hload hflagged
  exact (hmeets.passesOn_iff hstart hgrounded hload hdeclare hsettles).2

/-- Only classes of a document pass on a proxy. -/
theorem exists_flagged_of_passesOn (hstart : KeepsFlags start statements start)
    (hload : start.load statements = .ok s') (h : s'.PassesOn c) :
    ∃ flag, s'.world.Flagged statements c flag := by
  have hs' : KeepsFlags start statements s' :=
    invariant_of_load (fun _ _ _ _ hnotes hsteps hs => hs.of_notesEntries hnotes hsteps)
      (fun _ _ _ hmeets h hs => hs.declareClass hmeets h) hstart hload
  obtain ⟨-, s, t, hmeets, rfl⟩ := hs' c _ h
  obtain ⟨s₁, _, _, _, hdeclare, -⟩ := hmeets.exists_declareClass hload
  obtain ⟨name, inner, c, flag, ht, hsettles⟩ := exists_settles_declareClass hdeclare
  rw [← hsettles.place]
  exact ⟨_, hmeets.flagged hload hdeclare ht hsettles⟩

/-- What a class passes on is what the nearest flag above it says. -/
theorem passesOn_iff_of_load (hstart : KeepsFlags start statements start)
    (hgrounded : start.IsGrounded) (hload : start.load statements = .ok s') :
    s'.PassesOn c ↔ ∃ d, Relation.ReflTransGen (s'.world.Defers statements) c d ∧
      s'.world.Flagged statements d (some (.string "recursive")) := by
  obtain ⟨names, hsteps⟩ := exists_leadsTo_of_load hload
  have hfollows : s'.world.FollowsFlags statements s'.PassesOn :=
    followsFlags_of_load hstart hgrounded hload
  exact hfollows.iff_exists (hsteps.isGrounded hgrounded).world fun _ =>
    exists_flagged_of_passesOn hstart hload

/-- The flag of a class adds its proxy, or without a flag the nearest one above it. -/
theorem MeetsClass.addsProxy_iff (hmeets : MeetsClass start statements s t)
    (hstart : KeepsFlags start statements start) (hgrounded : start.IsGrounded)
    (hload : start.load statements = .ok s') (hdeclare : s.declareClass t = .ok s₁)
    (hsettles : s.Settles s₁ name inner c flag) :
    s.AddsProxy s₁ name c ↔ inner.proxyFlag? = some (.bool true) ∨
      inner.proxyFlag? = some (.string "True") ∨ inner.proxyFlag? = some (.string "recursive") ∨
      inner.proxyFlag? = none ∧ ∃ d, Relation.ReflTransGen (s'.world.Defers statements) c d ∧
        s'.world.Flagged statements d (some (.string "recursive")) := by
  obtain ⟨hpasses, hflag⟩ := hmeets.passesOn_iff hstart hgrounded hload hdeclare hsettles
  rw [hsettles.addsProxy_iff, hsettles.present, ← hpasses, or_assoc]
  refine or_congr_right (or_congr_right ?_)
  rw [hflag]
  refine or_congr_right (and_congr_right fun hnone => ?_)
  -- without a flag, the first parent decides just as the class itself
  rw [← passesOn_iff_of_load hstart hgrounded hload, hflag]
  simp [hnone]

/-- A flag that is not for classes below keeps those without one from having a proxy. -/
theorem MeetsClass.individuals_of_defers (hmeets : MeetsClass start statements s t)
    (hstart : KeepsFlags start statements start) (hgrounded : start.IsGrounded)
    (hload : start.load statements = .ok s') (hdeclare : s.declareClass t = .ok s₁)
    (hsettles : s.Settles s₁ name inner c flag) (hnone : inner.proxyFlag? = none) {d : ClassId}
    {other : Tree} (hway : Relation.ReflTransGen (s'.world.Defers statements) c d)
    (hother : s'.world.Flagged statements d (some other)) (hne : other ≠ .string "recursive") :
    s₁.world.individuals = s.world.individuals := by
  have hfollows : s'.world.FollowsFlags statements s'.PassesOn :=
    followsFlags_of_load hstart hgrounded hload
  have hstop : ¬s'.PassesOn c := by
    rw [hfollows.iff_of_reflTransGen hway, hfollows d _ hother]
    simpa using hne
  have hpasses := (hmeets.passesOn_iff hstart hgrounded hload hdeclare hsettles).1
  have hindividuals := hsettles.individuals
  cases flag with
  | absent => exact hindividuals
  | present =>
    rcases hsettles.present.mp rfl with hflag | hflag <;>
    · rw [hnone] at hflag
      cases hflag
  | recursive => exact absurd (hpasses.mpr rfl) hstop

end LoadSession

namespace World

variable {settings : LoadSettings} {folder : Folder} {base : String} {document : Tree}
  {statements : List (String × Tree)} {w : World}

/-- **A class has a proxy if and only if its flag asks for one, or the nearest flag above it does so
for classes below.**  Loading comes to every class that a document declares.  The declaration of a
class adds no individual, or the proxy: an individual named after the class with the class as its
first type.  It adds the proxy if the flag is true, or if it is the one for classes below as well.
Without a flag it does so if the way up, from first parent to first parent through classes without a
flag, comes to a class whose flag is the one for classes below.  Where it comes to any other flag,
there is no proxy. -/
theorem proxies_of_load (h : load settings folder base document = .ok w)
    (hstatements : Shape.statements document = .ok statements) :
    (∀ keyword body t, (keyword, body) ∈ statements → t ∈ classItems keyword body →
      ∃ s, MeetsClass (start settings folder base statements) statements s t) ∧
    ∀ s t, MeetsClass (start settings folder base statements) statements s t →
      ∃ s' name inner c, s.declareClass t = .ok s' ∧ t = .mapping [(.string name, inner)] ∧
        w.classNamed? name = some c ∧
        (s.AddsProxy s' name c ∨ s'.world.individuals = s.world.individuals) ∧
        (s.AddsProxy s' name c ↔ inner.proxyFlag? = some (.bool true) ∨
          inner.proxyFlag? = some (.string "True") ∨
          inner.proxyFlag? = some (.string "recursive") ∨
          inner.proxyFlag? = none ∧ ∃ d, Relation.ReflTransGen (w.Defers statements) c d ∧
            w.Flagged statements d (some (.string "recursive"))) ∧
        (inner.proxyFlag? = none → ∀ d flag, Relation.ReflTransGen (w.Defers statements) c d →
          w.Flagged statements d (some flag) → flag ≠ .string "recursive" →
            s'.world.individuals = s.world.individuals) ∧
        (s.AddsProxy s' name c → ∃ i, w.individualNamed? ("i" ++ name) = some i ∧
          (w.getIndividual i).isA.head? = some (.named c)) := by
  obtain ⟨last, hload, rfl⟩ := exists_load_start h hstatements
  have hgrounded : (start settings folder base statements).IsGrounded :=
    LoadSession.isGrounded_new _ _ _ _
  have hstart : KeepsFlags (start settings folder base statements) statements
      (start settings folder base statements) := by
    intro c value hvalue
    cases hvalue
  refine ⟨fun keyword body t hstatement ht => exists_meetsClass hload hstatement ht,
    fun s t hmeets => ?_⟩
  obtain ⟨s₁, _, _, _, hdeclare, -⟩ := hmeets.exists_declareClass hload
  obtain ⟨name, inner, c, flag, ht, hsettles⟩ := exists_settles_declareClass hdeclare
  have hkeep := hmeets.isExtendedBy hload hdeclare
  refine ⟨s₁, name, inner, c, hdeclare, ht, ?_, ?_, ?_, ?_, ?_⟩
  · rw [classNamed?, lookup?_of_get? (hkeep.names _ _ hsettles.named)]
  · have hindividuals := hsettles.individuals
    split at hindividuals
    · exact .inr hindividuals
    · exact .inl hindividuals
  · exact hmeets.addsProxy_iff hstart hgrounded hload hdeclare hsettles
  · intro hnone d other hway hother hne
    exact hmeets.individuals_of_defers hstart hgrounded hload hdeclare hsettles
      hnone hway hother hne
  · exact fun hadds => hadds.exists_individual hkeep

/-! ### A pizzeria -/

/-- A topping without a flag. -/
def topping (name parent : String) : Tree :=
  .object [(name, .object [("SubClassOf", .string parent)])]

/-- All toppings, of which onions are to have no proxies. -/
def toppings : List Tree := [
  .object [("Cheese", .object [
    ("SubClassOf", .string "Topping"), ("__create_proxy_individual", .null)])],
  topping "Mozzarella" "Cheese",
  .object [("Onion", .object [
    ("SubClassOf", .string "Topping"), ("__create_proxy_individual", .bool false)])],
  topping "RedOnion" "Onion"]

/-- Toppings are to have proxies. -/
def pizzeriaStatements : List (String × Tree) := [
  ("owl_class", .object [("Topping",
    .object [("__create_proxy_individual", .string "recursive")])]),
  ("multiple_owl_classes", .sequence toppings)]

/-- The document of these statements. -/
def pizzeriaDocument : Tree :=
  .sequence (pizzeriaStatements.map fun (keyword, body) => .object [(keyword, body)])

/-- The ontology of the document. -/
def pizzeria : World :=
  (load {} {} "" pizzeriaDocument).toOption.getD default

/-- Mozzarella is a cheese, and cheese leaves it to toppings, so there is a proxy.  Red onions leave
it to onions, so there is none. -/
theorem proxies_of_load_pizzeria :
    load {} {} "" pizzeriaDocument = .ok pizzeria ∧
      Shape.statements pizzeriaDocument = .ok pizzeriaStatements ∧
      (∃ s s' : LoadSession, MeetsClass (start {} {} "" pizzeriaStatements) pizzeriaStatements s
        (topping "Mozzarella" "Cheese") ∧ s.declareClass (topping "Mozzarella" "Cheese") = .ok s' ∧
        s.AddsProxy s' "Mozzarella" ⟨2⟩) ∧
      (∃ s s' : LoadSession, MeetsClass (start {} {} "" pizzeriaStatements) pizzeriaStatements s
        (topping "RedOnion" "Onion") ∧ s.declareClass (topping "RedOnion" "Onion") = .ok s' ∧
        s'.world.individuals = s.world.individuals) ∧
      ∃ i, pizzeria.individualNamed? "iMozzarella" = some i ∧
        (pizzeria.getIndividual i).isA.head? = some (.named ⟨2⟩) := by
  have hload : load {} {} "" pizzeriaDocument = .ok pizzeria := eq_ok_of_isSome (by decide +kernel)
  obtain ⟨htopping, hcheese, hmozzarella, honion, hredOnion⟩ :
      pizzeria.classNamed? "Topping" = some ⟨0⟩ ∧ pizzeria.classNamed? "Cheese" = some ⟨1⟩ ∧
      pizzeria.classNamed? "Mozzarella" = some ⟨2⟩ ∧ pizzeria.classNamed? "Onion" = some ⟨3⟩ ∧
      pizzeria.classNamed? "RedOnion" = some ⟨4⟩ := by
    decide +kernel
  obtain ⟨hupCheese, hupMozzarella, hupRedOnion⟩ :
      (pizzeria.getClass ⟨1⟩).isA.head? = some (.named ⟨0⟩) ∧
      (pizzeria.getClass ⟨2⟩).isA.head? = some (.named ⟨1⟩) ∧
      (pizzeria.getClass ⟨4⟩).isA.head? = some (.named ⟨3⟩) := by
    decide +kernel
  have hstatement : ("multiple_owl_classes", .sequence toppings) ∈ pizzeriaStatements :=
    List.mem_cons_of_mem _ List.mem_cons_self
  have hitem : ∀ k (hk : k < toppings.length),
      toppings[k] ∈ classItems "multiple_owl_classes" (.sequence toppings) :=
    fun k hk => List.getElem_mem hk
  have hrecursive : pizzeria.Flagged pizzeriaStatements ⟨0⟩ (some (.string "recursive")) :=
    ⟨_, _, _, _, List.mem_cons_self, List.mem_cons_self, htopping, by decide⟩
  have hdefersCheese : pizzeria.Defers pizzeriaStatements ⟨1⟩ ⟨0⟩ :=
    ⟨⟨_, _, _, _, hstatement, hitem 0 (by decide), hcheese, by decide⟩, hupCheese⟩
  have hdefersMozzarella : pizzeria.Defers pizzeriaStatements ⟨2⟩ ⟨1⟩ :=
    ⟨⟨_, _, _, _, hstatement, hitem 1 (by decide), hmozzarella, by decide⟩, hupMozzarella⟩
  have hfalse : pizzeria.Flagged pizzeriaStatements ⟨3⟩ (some (.bool false)) :=
    ⟨_, _, _, _, hstatement, hitem 2 (by decide), honion, by decide⟩
  have hdefersRedOnion : pizzeria.Defers pizzeriaStatements ⟨4⟩ ⟨3⟩ :=
    ⟨⟨_, _, _, _, hstatement, hitem 3 (by decide), hredOnion, by decide⟩, hupRedOnion⟩
  obtain ⟨hmet, hproxies⟩ := proxies_of_load hload rfl
  obtain ⟨s, hs⟩ := hmet _ _ _ hstatement (hitem 1 (by decide))
  obtain ⟨s', name, inner, c, hdeclare, ht, hname, -, hadds, -, hindividual⟩ := hproxies s _ hs
  obtain ⟨u, hu⟩ := hmet _ _ _ hstatement (hitem 3 (by decide))
  obtain ⟨u', name', inner', c', hdeclare', ht', hname', -, -, hstops, -⟩ := hproxies u _ hu
  cases ht
  cases ht'
  obtain rfl := Option.some.inj (hmozzarella.symm.trans hname)
  obtain rfl := Option.some.inj (hredOnion.symm.trans hname')
  have hproxy : s.AddsProxy s' "Mozzarella" ⟨2⟩ := hadds.mpr (.inr (.inr (.inr ⟨by decide, ⟨0⟩,
    .head hdefersMozzarella (.single hdefersCheese), hrecursive⟩)))
  have hnone : u'.world.individuals = u.world.individuals :=
    hstops (by decide) ⟨3⟩ (.bool false) (.single hdefersRedOnion) hfalse (by decide)
  exact ⟨hload, rfl, ⟨s, s', hs, hdeclare, hproxy⟩,
    ⟨u, u', hu, hdeclare', hnone⟩, hindividual hproxy⟩

end World

end Ontology
