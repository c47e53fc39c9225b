import Ontology.Expression

/-!
# Entities of an ontology

## Main definitions

* `Characteristics` — which of the four characteristics a property has.
* `Class`, `Property`, `Individual` — what an ontology says about each of its entities.
* `Assertions` — the values of an individual, by property.
* `Rule` — a Horn rule over class and property atoms.
* `Import` — another ontology whose classes are used.
* `Entity` — anything that a name can stand for.
-/

namespace Ontology

/-! ### Properties -/

/-- A characteristic of a property. -/
inductive Characteristic where
  | functional
  | inverseFunctional
  | symmetric
  | transitive
  deriving DecidableEq, Repr, Inhabited

namespace Characteristic

/-- The characteristics in their fixed order. -/
def all : List Characteristic := [.functional, .inverseFunctional, .symmetric, .transitive]

/-- The name of a characteristic in a document. -/
def name : Characteristic → String
  | .functional => "Functional"
  | .inverseFunctional => "InverseFunctional"
  | .symmetric => "Symmetric"
  | .transitive => "Transitive"

end Characteristic

/-- A set of characteristics. -/
structure Characteristics where
  /-- At most one value for each individual. -/
  functional : Bool := false
  /-- Each value belongs to at most one individual. -/
  inverseFunctional : Bool := false
  symmetric : Bool := false
  transitive : Bool := false
  deriving DecidableEq, Repr, Inhabited

namespace Characteristics

/-- Membership. -/
def contains (s : Characteristics) : Characteristic → Bool
  | .functional => s.functional
  | .inverseFunctional => s.inverseFunctional
  | .symmetric => s.symmetric
  | .transitive => s.transitive

/-- Adds a characteristic. -/
def insert (s : Characteristics) : Characteristic → Characteristics
  | .functional => { s with functional := true }
  | .inverseFunctional => { s with inverseFunctional := true }
  | .symmetric => { s with symmetric := true }
  | .transitive => { s with transitive := true }

/-- The set of the characteristics of a list. -/
def ofList (cs : List Characteristic) : Characteristics :=
  cs.foldl insert {}

/-- The characteristics in their fixed order. -/
def toList (s : Characteristics) : List Characteristic :=
  Characteristic.all.filter s.contains

/-- The set is empty. -/
def isEmpty (s : Characteristics) : Bool :=
  s.toList.isEmpty

/-- What is known of the inverse of a property: functional and inverse functional change places,
nothing else carries over. -/
def inverted (s : Characteristics) : Characteristics where
  functional := s.inverseFunctional
  inverseFunctional := s.functional

end Characteristics

/-- Object properties relate individuals to individuals, data properties to literals. -/
inductive PropertyKind where
  | object
  | data
  deriving DecidableEq, Repr, Inhabited

/-- The name of a kind. -/
def PropertyKind.name : PropertyKind → String
  | .object => "Object"
  | .data => "Data"

/-- What the values of a property have to be. -/
inductive PropertyRange where
  | classes (classes : List ClassExpression)
  | datatypes (datatypes : List Datatype)
  deriving DecidableEq, Repr, Inhabited

/-- A range accepts a literal; one without datatypes accepts all. -/
def PropertyRange.accepts (range : PropertyRange) (l : Literal) : Bool :=
  match range with
  | .datatypes ds => ds.isEmpty || ds.any (·.accepts l)
  | .classes _ => true

/-- A property. -/
structure Property where
  name : String
  /-- The IRI; an empty one is replaced when the property joins an ontology. -/
  iri : String := ""
  kind : PropertyKind
  domain : List ClassExpression := [.thing]
  range : PropertyRange :=
    match kind with
    | .object => .classes [.thing]
    | .data => .datatypes []
  characteristics : Characteristics := {}
  /-- The property that this one is declared to be the inverse of. -/
  inverseOf : Option PropertyId := none
  /-- The properties that this one implies. -/
  parents : List PropertyId := []
  comments : List String := []
  labels : List String := []
  deriving DecidableEq, Repr, Inhabited

/-- The class expressions of the range of an object property. -/
def Property.rangeClasses (p : Property) : List ClassExpression :=
  match p.range with
  | .classes classes => classes
  | .datatypes _ => []

/-! ### Classes -/

/-- A named class. -/
structure Class where
  name : String
  /-- The IRI; an empty one is replaced when the class joins an ontology. -/
  iri : String := ""
  /-- The parents, the first one being the primary one, and restrictions added later. -/
  isA : List ClassExpression := [.thing]
  equivalentTo : List ClassExpression := []
  comments : List String := []
  labels : List String := []
  /-- The class comes from another ontology. -/
  imported : Bool := false
  deriving DecidableEq, Repr, Inhabited

namespace Class

/-- The named parents. -/
def parents (c : Class) : List ClassId :=
  c.isA.filterMap ClassExpression.named?

/-- The restrictions that hold for every instance. -/
def restrictions (c : Class) : List Restriction :=
  c.isA.filterMap ClassExpression.restriction?

end Class

/-! ### Individuals -/

theorem Assertions.sorted_nil :
    ([] : List (PropertyId × List Value)).Pairwise (·.1.index < ·.1.index) :=
  .nil

/-- The values of an individual: a row for each property that has any, in the order of the
properties, with the values in the order in which they were added. -/
structure Assertions where
  rows : List (PropertyId × List Value) := []
  /-- The rows are in the order of their properties, and no property has two rows. -/
  sorted : rows.Pairwise (·.1.index < ·.1.index) := by exact Assertions.sorted_nil
  deriving DecidableEq, Repr

namespace Assertions

instance : Inhabited Assertions := ⟨{}⟩

/-- The values of a property. -/
def get (a : Assertions) (p : PropertyId) : List Value :=
  (a.rows.lookup p).getD []

/-- Changes the values of a property in rows that are in order. -/
def modifyRows (p : PropertyId) (f : List Value → List Value) :
    List (PropertyId × List Value) → List (PropertyId × List Value)
  | [] => [(p, f [])]
  | (q, values) :: rest =>
    if q = p then (q, f values) :: rest
    else if p.index < q.index then (p, f []) :: (q, values) :: rest
    else (q, values) :: modifyRows p f rest

/-- The properties of rows after a change. -/
theorem mem_modifyRows {p : PropertyId} {f : List Value → List Value}
    {row : PropertyId × List Value} : ∀ {rows : List (PropertyId × List Value)},
      row ∈ modifyRows p f rows → row.1 = p ∨ row ∈ rows
  | [], h => by
    rw [modifyRows, List.mem_singleton] at h
    exact Or.inl (by rw [h])
  | (q, values) :: rest, h => by
    rw [modifyRows] at h
    split at h
    · next hq =>
      rcases List.mem_cons.mp h with rfl | h
      · exact Or.inl hq
      · exact Or.inr (List.mem_cons_of_mem _ h)
    split at h
    · rcases List.mem_cons.mp h with rfl | h
      · exact Or.inl rfl
      · exact Or.inr h
    · rcases List.mem_cons.mp h with rfl | h
      · exact Or.inr List.mem_cons_self
      · exact (mem_modifyRows h).imp_right (List.mem_cons_of_mem _)

/-- A change keeps rows in order. -/
theorem sorted_modifyRows {p : PropertyId} {f : List Value → List Value} :
    ∀ {rows : List (PropertyId × List Value)}, rows.Pairwise (·.1.index < ·.1.index) →
      (modifyRows p f rows).Pairwise (·.1.index < ·.1.index)
  | [], _ => List.pairwise_singleton _ _
  | (q, values) :: rest, h => by
    obtain ⟨hq, hrest⟩ := List.pairwise_cons.mp h
    rw [modifyRows]
    split
    · exact List.pairwise_cons.mpr ⟨hq, hrest⟩
    next hne =>
    split
    · next hlt =>
      refine List.pairwise_cons.mpr ⟨fun row hrow => ?_, h⟩
      rcases List.mem_cons.mp hrow with rfl | hrow
      · exact hlt
      · exact Nat.lt_trans hlt (hq row hrow)
    · next hle =>
      -- the new row, if there is one, stands behind the first
      refine List.pairwise_cons.mpr ⟨fun row hrow => ?_, sorted_modifyRows hrest⟩
      rcases mem_modifyRows hrow with hp | hrow
      · have hindex : q.index ≠ p.index := fun heq => hne (by cases q; cases p; simp_all)
        rw [hp]
        exact Nat.lt_of_le_of_ne (Nat.le_of_not_lt hle) hindex
      · exact hq row hrow

/-- Replaces the values of a property by one. -/
def set (a : Assertions) (p : PropertyId) (v : Value) : Assertions :=
  ⟨modifyRows p (fun _ => [v]) a.rows, sorted_modifyRows a.sorted⟩

/-- Adds a value of a property behind the others. -/
def push (a : Assertions) (p : PropertyId) (v : Value) : Assertions :=
  ⟨modifyRows p (· ++ [v]) a.rows, sorted_modifyRows a.sorted⟩

/-- All pairs of a property and one of its values. -/
def toList (a : Assertions) : List (PropertyId × Value) :=
  a.rows.flatMap fun (p, values) => values.map (p, ·)

end Assertions

/-- A named individual. -/
structure Individual where
  name : String
  iri : String := ""
  /-- The primary type and further axioms about the individual. -/
  isA : List ClassExpression
  /-- The values stated in the ontology. -/
  facts : Assertions := {}
  /-- The values added by a reasoner. -/
  inferredFacts : Assertions := {}
  /-- The types added by a reasoner. -/
  inferredTypes : List ClassId := []
  deriving DecidableEq, Repr, Inhabited

namespace Individual

/-- The type that an individual was declared with. -/
def primaryType (i : Individual) : ClassExpression :=
  i.isA.headD .thing

/-- The restrictions that an individual satisfies. -/
def membershipAxioms (i : Individual) : List Restriction :=
  i.isA.filterMap ClassExpression.restriction?

end Individual

/-! ### Rules -/

/-- An argument of an atom. -/
inductive Argument where
  | variable (name : String)
  | individual (i : IndividualId)
  | literal (l : Literal)
  deriving DecidableEq, Repr, Inhabited

/-- An atom of a rule. -/
inductive Atom where
  | type (c : ClassId) (argument : Argument)
  | fact (p : PropertyId) (subject object : Argument)
  | same (a b : Argument)
  | different (a b : Argument)
  deriving DecidableEq, Repr, Inhabited

/-- A Horn rule: the head holds wherever the body does. -/
structure Rule where
  name : String
  label : Option String := none
  /-- The text that the rule was read from. -/
  source : String
  body : List Atom
  head : List Atom
  deriving DecidableEq, Repr, Inhabited

/-! ### Imports and names -/

/-- Another ontology whose classes are used. -/
structure Import where
  iri : String
  /-- What names of its classes start with, with the colon at the end. -/
  qualifier : Option String := none
  /-- The file it was read from. -/
  source : String
  /-- The classes by their local names, which are in order. -/
  classes : List (String × ClassId) := []
  deriving DecidableEq, Repr, Inhabited

/-- A word that joins class expressions. -/
inductive Connective where
  | or
  | and
  | not
  deriving DecidableEq, Repr, Inhabited

/-- The name of a connective in a document. -/
def Connective.name : Connective → String
  | .or => "Or"
  | .and => "And"
  | .not => "Not"

/-- Anything that a name can stand for. -/
inductive Entity where
  | class (c : ClassId)
  | property (p : PropertyId)
  | individual (i : IndividualId)
  | rule (r : RuleId)
  | thing
  | nothing
  | datatype (d : Datatype)
  | characteristic (c : Characteristic)
  | connective (c : Connective)
  | quantifier (q : Quantifier)
  /-- The word `Inverse`. -/
  | inverse
  deriving DecidableEq, Repr, Inhabited

/-- The name of the kind of an entity. -/
def Entity.kind : Entity → String
  | .class _ => "class"
  | .property _ => "property"
  | .individual _ => "individual"
  | .rule _ => "rule"
  | .thing => "thing"
  | .nothing => "nothing"
  | .datatype _ => "datatype"
  | .characteristic _ => "characteristic"
  | .connective _ => "connective"
  | .quantifier _ => "quantifier"
  | .inverse => "inverse"

/-- The structure of an entity with its constructors named. -/
def Entity.outline : Entity → String
  | .class c => "Class(ClassId(" ++ toString c.index ++ "))"
  | .property p => "Property(PropertyId(" ++ toString p.index ++ "))"
  | .individual i => "Individual(IndividualId(" ++ toString i.index ++ "))"
  | .rule r => "Rule(RuleId(" ++ toString r.index ++ "))"
  | .thing => "Thing"
  | .nothing => "Nothing"
  | .datatype .int => "Datatype(Int)"
  | .datatype .float => "Datatype(Float)"
  | .datatype .text => "Datatype(Str)"
  | .datatype .bool => "Datatype(Bool)"
  | .characteristic c => "Characteristic(" ++ c.name ++ ")"
  | .connective c => "Connective(" ++ c.name ++ ")"
  | .quantifier .some => "Quantifier(Some)"
  | .quantifier .value => "Quantifier(Value)"
  | .inverse => "Inverse"

end Ontology
