import Mathlib.Data.List.Basic
import Ontology.World

/-!
# Names and entities

The names of a document and the entities of its ontology belong together one to one: every call that
adds an entity declares a name for it first, and a name that is taken stops the call before anything
has changed.

What a call that fails leaves behind depends on the order of its changes.  So the calls are taken
apart into changes of an ontology in place, of which each sees what the ones before it did.

## Main definitions

* `Addition` — a call that adds an entity or an import.
* `Addition.perform` — what it makes of an ontology; `Addition.changes` — how it gets there.
* `World.HasEntry` — an entity is one of the ontology.
* `World.NamesMatch` — names and entities belong together one to one.

## Main results

* `Addition.run_changes` — **a call that fails leaves the ontology as it was.**
* `Addition.perform_eq_error_iff` — a call fails if and only if its name is taken.
* `World.namesMatch_afterAll` — **names and entities belong together after any sequence of calls.**
-/

namespace Ontology

/-! ### The table of names -/

namespace Namespace

variable {ns ns' : Namespace} {name : String} {e : Entity}

theorem insert_eq_ok_iff : ns.insert name e = .ok ns' ↔
    ns.get? name = none ∧ { ns with names := (name, e) :: ns.names } = ns' := by
  cases hname : ns.get? name with
  | none => simp [insert, contains, hname]
  | some e' => simp [insert, contains, hname]

/-- A new name is found beside those that were there. -/
theorem get?_of_insert (h : ns.insert name e = .ok ns') (name' : String) :
    ns'.get? name' = if name' = name then some e else ns.get? name' := by
  obtain ⟨-, rfl⟩ := insert_eq_ok_iff.mp h
  rw [get?, List.lookup_cons]
  by_cases hname : name' = name
  · simp [hname]
  · rw [if_neg hname, beq_eq_false_iff_ne.mpr hname, get?]

/-- A name keeps what it stands for. -/
theorem get?_mono (h : ns.insert name e = .ok ns') {name' : String} {e' : Entity}
    (he' : ns.get? name' = some e') : ns'.get? name' = some e' := by
  have hne : name' ≠ name := by
    rintro rfl
    rw [(insert_eq_ok_iff.mp h).1] at he'
    simp at he'
  rw [get?_of_insert h, if_neg hne]
  exact he'

end Namespace

/-! ### Entries -/

namespace World

/-- An entity is one of the ontology. -/
def HasEntry (w : World) : Entity → Prop
  | .class c => c.index < w.classes.size
  | .property p => p.index < w.properties.size
  | .individual i => i.index < w.individuals.size
  | .rule r => r.index < w.rules.size
  | .thing | .nothing | .datatype _ | .characteristic _ | .connective _ | .quantifier _
  | .inverse => False

/-- What the fixed vocabulary stands for is no entity of an ontology. -/
theorem not_hasEntry_of_vocabulary {w : World} {name : String} {e : Entity}
    (h : Namespace.withBuiltins.get? name = some e) : ¬w.HasEntry e := by
  have hmem : (name, e) ∈ Namespace.builtins := by
    obtain ⟨before, behind, heq, -⟩ := List.lookup_eq_some_iff.mp h
    have heq : Namespace.builtins = _ := heq
    simp [heq]
  have hnone : ∀ entry ∈ Namespace.builtins, ¬w.HasEntry entry.2 := by
    simp [Namespace.builtins, HasEntry]
  exact hnone _ hmem

end World

/-! ### Calls -/

/-- A call that adds an entity or an import. -/
inductive Addition where
  | class (c : Class)
  | importedClass (name localName iri : String)
  | property (p : Property)
  | individual (name : String) (type : ClassExpression)
  | rule (r : Rule)
  | ontology (i : Import)
  deriving Repr, Inhabited

namespace Addition

variable {a : Addition} {w w' : World} {name : String} {e : Entity}

/-- What a call makes of an ontology, and the entity that it adds. -/
def perform (w : World) : Addition → Except NameError (World × Option Entity)
  | .class c => (w.addClass c).map fun (w', id) => (w', some (.class id))
  | .importedClass name localName iri =>
    (w.addImportedClass name localName iri).map fun (w', id) => (w', some (.class id))
  | .property p => (w.addProperty p).map fun (w', id) => (w', some (.property id))
  | .individual name type =>
    (w.addIndividual name type).map fun (w', id) => (w', some (.individual id))
  | .rule r => (w.addRule r).map fun (w', id) => (w', some (.rule id))
  | .ontology i => .ok (w.addImport i, none)

/-! #### Changes in place -/

/-- The name that a call declares, and the place that it chooses for its entity. -/
def declaration? (w : World) : Addition → Option (String × Entity)
  | .class c => some (c.name, .class ⟨w.classes.size⟩)
  | .importedClass name _ _ => some (name, .class ⟨w.classes.size⟩)
  | .property p => some (p.name, .property ⟨w.properties.size⟩)
  | .individual name _ => some (name, .individual ⟨w.individuals.size⟩)
  | .rule r => some (r.name, .rule ⟨w.rules.size⟩)
  | .ontology _ => none

/-- What a call adds once its name has been declared. -/
def put (w : World) : Addition → World
  | .class c => { w with classes := w.classes.push { c with iri := w.iriOr c.iri c.name } }
  | .importedClass _ localName iri =>
    { w with classes := w.classes.push { name := localName, iri, imported := true } }
  | .property p => { w with properties := w.properties.push { p with iri := w.iriOr p.iri p.name } }
  | .individual name type =>
    { w with individuals := w.individuals.push { name, iri := w.entityIri name, isA := [type] } }
  | .rule r => { w with rules := w.rules.push r }
  | .ontology i => w.addImport i

/-- Declares a name. -/
def declare (name : String) (e : Entity) : EStateM NameError World Unit := do
  match (← get).names.insert name e with
  | .ok names => modify fun w => { w with names }
  | .error fault => throw fault

/-- The changes of a call in their order: a place is chosen, the name is declared, and then the
entity is put there.  A change that fails leaves behind what was changed before it. -/
def changes (a : Addition) : EStateM NameError World (Option Entity) := do
  match a.declaration? (← get) with
  | none =>
    modify (put · a)
    return none
  | some (name, e) =>
    declare name e
    modify (put · a)
    return some e

/-- Every call declares a name and puts an entity at its place. -/
theorem perform_eq (a : Addition) (w : World) :
    a.perform w = match a.declaration? w with
      | none => .ok (a.put w, none)
      | some (name, e) =>
        match w.names.insert name e with
        | .ok names => .ok (a.put { w with names }, some e)
        | .error fault => .error fault := by
  cases a with
  | «class» c =>
    rw [perform, World.addClass]
    dsimp only [declaration?]
    cases w.names.insert c.name (.class ⟨w.classes.size⟩) <;> rfl
  | importedClass name localName iri =>
    rw [perform, World.addImportedClass]
    dsimp only [declaration?]
    cases w.names.insert name (.class ⟨w.classes.size⟩) <;> rfl
  | property p =>
    rw [perform, World.addProperty]
    dsimp only [declaration?]
    cases w.names.insert p.name (.property ⟨w.properties.size⟩) <;> rfl
  | individual name type =>
    rw [perform, World.addIndividual]
    dsimp only [declaration?]
    cases w.names.insert name (.individual ⟨w.individuals.size⟩) <;> rfl
  | rule r =>
    rw [perform, World.addRule]
    dsimp only [declaration?]
    cases w.names.insert r.name (.rule ⟨w.rules.size⟩) <;> rfl
  | ontology i => rfl

/-- **A call that fails leaves the ontology as it was.** -/
theorem run_changes (a : Addition) (w : World) :
    a.changes.run w = match a.perform w with
      | .ok (w', e) => .ok e w'
      | .error fault => .error fault w := by
  rw [perform_eq]
  simp only [changes, EStateM.run_bind, EStateM.run_get]
  cases hentry : a.declaration? w with
  | none => rfl
  | some entry =>
    obtain ⟨name, e⟩ := entry
    simp only [declare, EStateM.run_bind, EStateM.run_get]
    cases w.names.insert name e <;> rfl

/-- A call fails if and only if its name is taken. -/
theorem perform_eq_error_iff {fault : NameError} : a.perform w = .error fault ↔
    ∃ name e, a.declaration? w = some (name, e) ∧ w.names.contains name = true ∧
      fault = .collision name := by
  rw [perform_eq]
  cases hentry : a.declaration? w with
  | none => simp
  | some entry =>
    obtain ⟨name, e⟩ := entry
    cases hname : w.names.contains name with
    | false => simp [Namespace.insert, hname]
    | true =>
      simp only [Namespace.insert, hname, if_true, Option.some.injEq, Prod.mk.injEq]
      constructor
      · intro h
        cases h
        exact ⟨name, e, ⟨rfl, rfl⟩, hname, rfl⟩
      · rintro ⟨_, _, ⟨rfl, rfl⟩, -, rfl⟩
        rfl

/-- A call that succeeds adds an import, or declares a new name and puts its entity at its place. -/
theorem perform_eq_ok {o : Option Entity} (h : a.perform w = .ok (w', o)) :
    (a.declaration? w = none ∧ w' = a.put w) ∨ ∃ name e names, a.declaration? w = some (name, e) ∧
      w.names.insert name e = .ok names ∧ w' = a.put { w with names } := by
  rw [perform_eq] at h
  cases hentry : a.declaration? w with
  | none =>
    rw [hentry] at h
    cases h
    exact .inl ⟨rfl, rfl⟩
  | some entry =>
    obtain ⟨name, e⟩ := entry
    rw [hentry] at h
    dsimp only at h
    cases hnames : w.names.insert name e with
    | error fault =>
      rw [hnames] at h
      cases h
    | ok names =>
      rw [hnames] at h
      cases h
      exact .inr ⟨name, e, names, rfl, hnames, rfl⟩

/-! #### Entities of an ontology after a call -/

/-- A call that declares a name adds the entity of that name and no other one. -/
theorem hasEntry_put (h : a.declaration? w = some (name, e)) (names : Namespace) (e' : Entity) :
    (a.put { w with names }).HasEntry e' ↔ e' = e ∨ w.HasEntry e' := by
  have hlt {n m : Nat} : n < m + 1 ↔ n = m ∨ n < m := by omega
  cases a with
  | «class» c =>
    cases h
    cases e' with
    | «class» d => cases d; simp [put, World.HasEntry, hlt]
    | _ => simp [put, World.HasEntry]
  | importedClass name localName iri =>
    cases h
    cases e' with
    | «class» d => cases d; simp [put, World.HasEntry, hlt]
    | _ => simp [put, World.HasEntry]
  | property p =>
    cases h
    cases e' with
    | property q => cases q; simp [put, World.HasEntry, hlt]
    | _ => simp [put, World.HasEntry]
  | individual name type =>
    cases h
    cases e' with
    | individual i => cases i; simp [put, World.HasEntry, hlt]
    | _ => simp [put, World.HasEntry]
  | rule r =>
    cases h
    cases e' with
    | rule r' => cases r'; simp [put, World.HasEntry, hlt]
    | _ => simp [put, World.HasEntry]
  | ontology i => cases h

/-- The place that a call chooses is free. -/
theorem not_hasEntry_of_declaration? (h : a.declaration? w = some (name, e)) : ¬w.HasEntry e := by
  cases a <;> cases h <;> simp [World.HasEntry]

/-- A call that declares a name leaves the table of names to the declaration. -/
theorem names_put (h : a.declaration? w = some (name, e)) (names : Namespace) :
    (a.put { w with names }).names = names := by
  cases a with
  | ontology i => cases h
  | _ => rfl

/-- An import brings qualifiers, but neither names nor entities. -/
theorem put_of_declaration?_eq_none (h : a.declaration? w = none) :
    (a.put w).names.names = w.names.names ∧ ∀ e, (a.put w).HasEntry e ↔ w.HasEntry e := by
  cases a with
  | ontology i =>
    refine ⟨?_, fun e => by cases e <;> rfl⟩
    cases hq : i.qualifier <;> simp [put, World.addImport, Namespace.registerQualifier, hq]
  | _ => cases h

end Addition

/-! ### Names and entities -/

namespace World

variable {w w' : World} {a : Addition} {name : String} {e : Entity}

/-- Names and entities belong together one to one. -/
structure NamesMatch (w : World) : Prop where
  /-- The fixed vocabulary keeps its meaning. -/
  vocabulary : ∀ name e, Namespace.withBuiltins.get? name = some e → w.names.get? name = some e
  /-- Every other name is that of an entity. -/
  entry : ∀ name e, Namespace.withBuiltins.contains name = false → w.names.get? name = some e →
    w.HasEntry e
  /-- Two names never share what they stand for. -/
  injective : ∀ name name' e, w.names.get? name = some e → w.names.get? name' = some e →
    name = name'
  /-- Every entity has one name. -/
  named : ∀ e, w.HasEntry e → ∃! name, w.names.get? name = some e

/-- The names of the fixed vocabulary stand for different things. -/
theorem builtins_injective {name' : String} (h : Namespace.withBuiltins.get? name = some e)
    (h' : Namespace.withBuiltins.get? name' = some e) : name = name' := by
  have hmem : ∀ {n}, Namespace.withBuiltins.get? n = some e → (n, e) ∈ Namespace.builtins := by
    intro n hn
    obtain ⟨before, behind, heq, -⟩ := List.lookup_eq_some_iff.mp hn
    have heq : Namespace.builtins = _ := heq
    simp [heq]
  have hpairs : ∀ x ∈ Namespace.builtins, ∀ y ∈ Namespace.builtins, x.2 = y.2 → x.1 = y.1 := by
    decide
  exact hpairs _ (hmem h) _ (hmem h') rfl

/-- A new ontology has the names of the fixed vocabulary and no entities. -/
theorem namesMatch_new (iri : String) : NamesMatch { iri } where
  vocabulary _ _ h := h
  entry name e hname h := by
    rw [Namespace.contains, Option.isSome_eq_false_iff, Option.isNone_iff_eq_none] at hname
    rw [show Namespace.get? _ name = none from hname] at h
    cases h
  injective _ _ _ h h' := builtins_injective h h'
  named e h := by
    cases e <;> simp [HasEntry] at h

namespace NamesMatch

/-- A name that stands for no entity belongs to the fixed vocabulary. -/
theorem builtin (hw : w.NamesMatch) (h : w.names.get? name = some e) (he : ¬w.HasEntry e) :
    Namespace.withBuiltins.get? name = some e := by
  cases hname : Namespace.withBuiltins.get? name with
  | none =>
    have hnew : Namespace.withBuiltins.contains name = false := by
      rw [Namespace.contains, hname]
      rfl
    exact absurd (hw.entry name e hnew h) he
  | some e' =>
    rw [← h, hw.vocabulary name e' hname]

/-- A new name together with a new entity. -/
theorem gains {names : Namespace} (hw : w.NamesMatch) (hinsert : w.names.insert name e = .ok names)
    (hnames : w'.names = names) (hentry : ∀ e', w'.HasEntry e' ↔ e' = e ∨ w.HasEntry e')
    (he : ¬w.HasEntry e) : w'.NamesMatch := by
  have hget : ∀ name', w'.names.get? name' = if name' = name then some e
      else w.names.get? name' := by
    rw [hnames]
    exact Namespace.get?_of_insert hinsert
  have hkeep : ∀ {name' e'}, w.names.get? name' = some e' → w'.names.get? name' = some e' := by
    rw [hnames]
    exact Namespace.get?_mono hinsert
  -- no name stood for the new entity before
  have hunnamed : ∀ name', w.names.get? name' ≠ some e := by
    intro name' h
    exact not_hasEntry_of_vocabulary (hw.builtin h he) ((hentry e).mpr (.inl rfl))
  have hinj : ∀ name₁ name₂ e', w'.names.get? name₁ = some e' → w'.names.get? name₂ = some e' →
      name₁ = name₂ := by
    intro name₁ name₂ e' h₁ h₂
    rw [hget] at h₁ h₂
    split at h₁ <;> split at h₂
    · next h h' => rw [h, h']
    · cases h₁
      exact absurd h₂ (hunnamed name₂)
    · cases h₂
      exact absurd h₁ (hunnamed name₁)
    · exact hw.injective name₁ name₂ e' h₁ h₂
  refine ⟨fun name' e' h => hkeep (hw.vocabulary name' e' h), ?_, hinj, ?_⟩
  · intro name' e' hname' h
    rw [hget] at h
    rw [hentry]
    split at h
    · cases h
      exact .inl rfl
    · exact .inr (hw.entry name' e' hname' h)
  · intro e' he'
    rcases (hentry e').mp he' with rfl | hold
    · have hname : w'.names.get? name = some e' := by rw [hget, if_pos rfl]
      exact ⟨name, hname, fun name' h => hinj _ _ _ h hname⟩
    · obtain ⟨name', h, -⟩ := hw.named e' hold
      exact ⟨name', hkeep h, fun name'' h' => hinj _ _ _ h' (hkeep h)⟩

/-- The same names for the same entities. -/
theorem congr (hw : w.NamesMatch) (hnames : w'.names.names = w.names.names)
    (hentry : ∀ e, w'.HasEntry e ↔ w.HasEntry e) : w'.NamesMatch := by
  have hget : ∀ name, w'.names.get? name = w.names.get? name := by
    intro name
    rw [Namespace.get?, hnames, Namespace.get?]
  constructor
  · simpa only [hget] using hw.vocabulary
  · simpa only [hget, hentry] using hw.entry
  · simpa only [hget] using hw.injective
  · simpa only [hget, hentry] using hw.named

/-- A call that succeeds keeps names and entities together. -/
theorem perform {o : Option Entity} (hw : w.NamesMatch) (h : a.perform w = .ok (w', o)) :
    w'.NamesMatch := by
  rcases Addition.perform_eq_ok h with ⟨hentry, rfl⟩ | ⟨name, e, names, hentry, hnames, rfl⟩
  · obtain ⟨hsame, hentries⟩ := Addition.put_of_declaration?_eq_none hentry
    exact hw.congr hsame hentries
  · exact hw.gains hnames (Addition.names_put hentry names) (Addition.hasEntry_put hentry names)
      (Addition.not_hasEntry_of_declaration? hentry)

end NamesMatch

/-- A call that succeeds leaves every name with its entity. -/
theorem get?_of_perform {o : Option Entity} (h : a.perform w = .ok (w', o))
    (hname : w.names.get? name = some e) : w'.names.get? name = some e := by
  rcases Addition.perform_eq_ok h with ⟨hentry, rfl⟩ | ⟨name', e', names, hentry, hnames, rfl⟩
  · rw [Namespace.get?, (Addition.put_of_declaration?_eq_none hentry).1]
    exact hname
  · rw [Addition.names_put hentry]
    exact Namespace.get?_mono hnames hname

/-! ### Sequences of calls -/

/-- What a call leaves behind, whether it succeeds or fails. -/
def after (w : World) (a : Addition) : World :=
  match a.changes.run w with
  | .ok _ w' => w'
  | .error _ w' => w'

/-- What a sequence of calls leaves behind; a call that fails does not end it. -/
def afterAll (w : World) (as : List Addition) : World :=
  as.foldl after w

/-- After a call the ontology is as before or as the call makes it. -/
theorem after_cases (w : World) (a : Addition) :
    w.after a = w ∨ ∃ o, a.perform w = .ok (w.after a, o) := by
  rw [after, Addition.run_changes]
  cases hperform : a.perform w with
  | error fault => exact .inl rfl
  | ok result => exact .inr ⟨result.2, rfl⟩

theorem NamesMatch.afterAll (hw : w.NamesMatch) (as : List Addition) :
    (w.afterAll as).NamesMatch := by
  induction as generalizing w with
  | nil => exact hw
  | cons a as ih =>
    refine ih (w := w.after a) ?_
    rcases after_cases w a with h | ⟨o, h⟩
    · rw [h]
      exact hw
    · exact hw.perform h

theorem get?_afterAll (as : List Addition) (hname : w.names.get? name = some e) :
    (w.afterAll as).names.get? name = some e := by
  induction as generalizing w with
  | nil => exact hname
  | cons a as ih =>
    refine ih (w := w.after a) ?_
    rcases after_cases w a with h | ⟨o, h⟩
    · rw [h]
      exact hname
    · exact get?_of_perform h hname

/-- **After any sequence of calls, failing ones included, names and entities belong together one to
one.**  A name keeps its entity from then on, and a call fails if and only if its name is taken and
then leaves the ontology as it was. -/
theorem namesMatch_afterAll (iri : String) (as : List Addition) :
    let w := ({ iri } : World).afterAll as
    w.NamesMatch ∧
      (∀ later name e, w.names.get? name = some e →
        (w.afterAll later).names.get? name = some e) ∧
      ∀ (a : Addition) (fault : NameError) (w' : World),
        a.changes.run w = .error fault w' ↔ w' = w ∧
          ∃ name e, a.declaration? w = some (name, e) ∧ w.names.contains name = true ∧
            fault = .collision name := by
  intro w
  refine ⟨(namesMatch_new iri).afterAll as, fun later name e => get?_afterAll later, ?_⟩
  intro a fault w'
  rw [← Addition.perform_eq_error_iff, Addition.run_changes]
  cases a.perform w with
  | ok result => simp
  | error fault' =>
    rw [EStateM.Result.error.injEq, Except.error.injEq, and_comm, eq_comm (a := w)]

end World

end Ontology
