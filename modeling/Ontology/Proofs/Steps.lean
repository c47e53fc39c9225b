import Mathlib.Logic.Relation
import Ontology.Loading.Document
import Ontology.Proofs.Ends
import Ontology.Proofs.Extension

/-!
# Steps of loading

Whatever a statement does, it does in steps of a few kinds: it adds an entity, an axiom, a comment
or a group, it writes a value of an individual, or it takes a note.  A step comes with what has been
checked by then: what it refers to is known, an axiom that is added later is a restriction, a value
is one that its property takes, and the classes that an import lists are declared.

Facts and entries about relations write values in different ways.  A fact replaces the value of a
functional property, an entry never does, so a step also tells which names an entry comes with.

## Main definitions

* `World.Takes` — a property takes a value; `World.Permits` — a write is one that loading makes.
* `World.Lists` — a row of a table of imported classes is that of a class with a name.
* `LoadSession.Step`, `LoadSession.LeadsTo` — one step, and a sequence of steps.

## Main results

* `LoadSession.LeadsTo.isExtendedBy` — **steps extend an ontology.**
* `LoadSession.leadsTo_foldlM` — parts that are sequences of steps are so together.
-/

namespace Ontology

/-- The kind of a property goes with its range: class expressions, or one datatype at least. -/
structure Property.IsTyped (p : Property) : Prop where
  object : p.kind = .object ↔ ∃ classes, p.range = .classes classes
  data : p.kind = .data ↔ ∃ datatypes, datatypes ≠ [] ∧ p.range = .datatypes datatypes

/-- What an addition refers to. -/
def Addition.references : Addition → List Reference
  | .class c => c.references
  | .importedClass .. => []
  | .property p => p.references
  | .individual _ type => type.references
  | .rule r => r.references
  | .ontology i => i.references

namespace World

variable {w w' : World}

/-- A property takes a value: an object property individuals, named classes, `owl:Thing` and
`owl:Nothing`, a data property the literals that its range accepts. -/
def Takes (w : World) (p : PropertyId) (v : Value) : Prop :=
  match (w.getProperty p).kind with
  | .object => (∃ i, v = .individual i) ∨ (∃ c, v = .expression (.named c)) ∨
      v = .expression .thing ∨ v = .nothing
  | .data => ∃ l, v = .literal l ∧ (w.getProperty p).range.accepts l = true

/-- A fact assigns the value of a functional property and appends to any other one.  An entry only
asks for a range that begins with a class. -/
def Permits (w : World) : Write → Prop
  | .assign _ p v => (w.getProperty p).characteristics.functional = true ∧ w.Takes p v
  | .append _ p v => (w.getProperty p).characteristics.functional = false ∧ w.Takes p v
  | .enter _ p _ => ∃ c, (w.getProperty p).rangeClasses.head? = some (.named c)

/-- A row of a table of imported classes tells the local name of a class, which is declared under
the local name with the qualifier of its import in front. -/
structure Lists (w : World) (qualifier : String) (row : String × ClassId) : Prop where
  has : w.Has (.class row.2)
  name : (w.getClass row.2).name = row.1
  declared : w.names.get? (qualifier ++ row.1) = some (.class row.2)

theorem IsExtendedBy.lists (h : w.IsExtendedBy w') {qualifier : String} {row : String × ClassId}
    (hrow : w.Lists qualifier row) : w'.Lists qualifier row where
  has := h.has hrow.has
  name := (h.getClass_name hrow.has).trans hrow.name
  declared := h.names _ _ hrow.declared

/-- An individual and a property are what the names of some pair stand for. -/
def IsNamedIn (w : World) (names : List (String × String)) (i : IndividualId) (p : PropertyId) :
    Prop :=
  ∃ subject role, (subject, role) ∈ names ∧ w.individualNamed? subject = some i ∧
    w.propertyNamed? role = some p

end World

namespace LoadSession

open World

/-- What is known to the ontology, or the property that all main roles imply. -/
def Knows (s : LoadSession) (r : Reference) : Prop :=
  s.world.Knows r ∨ ∃ p, s.concepts.mainRole = some p ∧ r = .property p

/-- What has been checked when something is added. -/
structure Admits (s : LoadSession) (a : Addition) : Prop where
  references : ∀ r ∈ a.references, s.Knows r
  typed : ∀ p, a = .property p → p.IsTyped
  inverse : ∀ p q, a = .property p → p.inverseOf = some q →
    ∃ name, s.world.lookup? name = some (.property q)
  ends : ∀ p, a = .property p → s.world.HasPlainEnds p
  table : ∀ i, a = .ontology i → ∀ row ∈ i.classes, s.world.Lists (i.qualifier.getD "") row

/-- One step of loading.  The names are those that entries about relations come with. -/
inductive Step (names : List (String × String)) (s : LoadSession) : LoadSession → Prop where
  | add {a : Addition} {world : World} {o : Option Entity} (ha : s.Admits a)
      (h : a.perform s.world = .ok (world, o)) : Step names s { s with world }
  | comment (text : String) : Step names s { s with world := s.world.addComment text }
  | different {group : List IndividualId} (h : ∀ i ∈ group, s.world.Knows (.individual i)) :
      Step names s { s with world := s.world.addDifferent group }
  | classAxiom {c : ClassId} {r : Restriction} (hr : ∀ x ∈ r.toExpression.references,
      s.world.Knows x) : Step names s { s with world := s.world.addClassAxiom c r.toExpression }
  | individualAxiom {i : IndividualId} {r : Restriction} (hr : ∀ x ∈ r.toExpression.references,
      s.world.Knows x) : Step names s
      { s with world := s.world.addIndividualAxiom i r.toExpression }
  | write {x : Write} (hpermits : s.world.Permits x) (hknown : ∀ r ∈ x.references, s.world.Knows r)
      (hentry : ∀ i p e, x = .enter i p e → s.world.IsNamedIn names i p) :
      Step names s { s with world := s.world.write x }
  | setAttribute (e : Entity) (key value : String) :
      Step names s { s with world.names := s.world.names.setAttribute e key value }
  | concepts {concepts : RelationConcepts} (h : ∀ p, concepts.mainRole = some p →
      s.world.Has (.property p) ∨ s.concepts.mainRole = some p) : Step names s { s with concepts }

/-- A sequence of steps. -/
abbrev LeadsTo (names : List (String × String)) : LoadSession → LoadSession → Prop :=
  Relation.ReflTransGen (Step names)

variable {names : List (String × String)} {s s' : LoadSession}

/-! ### What steps keep -/

/-- A step extends an ontology. -/
theorem Step.isExtendedBy (h : s.Step names s') : s.world.IsExtendedBy s'.world := by
  cases h with
  | add ha h => exact isExtendedBy_perform h
  | comment text => exact isExtendedBy_addComment _ text
  | different h => exact isExtendedBy_addDifferent _ _
  | classAxiom hr => exact isExtendedBy_addClassAxiom _ _ _
  | individualAxiom hr => exact isExtendedBy_addIndividualAxiom _ _ _
  | write hpermits hknown hentry =>
    refine isExtendedBy_write fun i p v hx => ?_
    subst hx
    exact hpermits.1
  | setAttribute e key value => exact isExtendedBy_setAttribute _ e key value
  | concepts h => exact .refl _

/-- **Steps extend an ontology.** -/
theorem LeadsTo.isExtendedBy (h : s.LeadsTo names s') : s.world.IsExtendedBy s'.world := by
  induction h with
  | refl => exact .refl _
  | tail _ hstep ih => exact ih.trans hstep.isExtendedBy

/-- Parts that are sequences of steps are so together. -/
theorem leadsTo_foldlM {α : Type} {f : LoadSession → α → Loading LoadSession} {as : List α}
    (hf : ∀ a ∈ as, ∀ s₁ s₂, s.LeadsTo names s₁ → f s₁ a = .ok s₂ → s₁.LeadsTo names s₂)
    (h : as.foldlM f s = .ok s') : s.LeadsTo names s' :=
  rel_of_foldlM (fun _ => .refl) (fun _ _ _ h h' => h.trans h') hf h

end LoadSession

end Ontology
