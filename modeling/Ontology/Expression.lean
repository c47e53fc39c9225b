import Ontology.Literal

/-!
# Class expressions

Classes, properties, individuals and rules are named by their place in the ontology.  A class
expression describes a set of individuals; a restriction describes those that stand in a relation
to something.

## Main definitions

* `ClassExpression`, `Filler` — the expressions and what a restriction asks for.
* `Restriction` — a property read in one direction, a quantifier and a filler.
* `Restriction.depth`, `Restriction.chain`, `Restriction.terminal` — the layers of a restriction
  whose filler is a restriction.
* `Value` — what a property may relate an individual to.
-/

namespace Ontology

/-! ### Names of entities -/

/-- A class, by its place. -/
structure ClassId where
  index : Nat
  deriving DecidableEq, Repr, Inhabited, Hashable

/-- A property, by its place. -/
structure PropertyId where
  index : Nat
  deriving DecidableEq, Repr, Inhabited, Hashable

/-- An individual, by its place. -/
structure IndividualId where
  index : Nat
  deriving DecidableEq, Repr, Inhabited, Hashable

/-- A rule, by its place. -/
structure RuleId where
  index : Nat
  deriving DecidableEq, Repr, Inhabited, Hashable

/-- The quantifier of a restriction. -/
inductive Quantifier where
  /-- Some value belongs to the filler. -/
  | some
  /-- The filler itself is a value. -/
  | value
  deriving DecidableEq, Repr, Inhabited

/-- The word for a quantifier. -/
def Quantifier.name : Quantifier → String
  | .some => "some"
  | .value => "value"

/-- A property read forwards or backwards. -/
inductive PropertyExpression where
  | named (property : PropertyId)
  | inverse (property : PropertyId)
  deriving DecidableEq, Repr, Inhabited

namespace PropertyExpression

/-- The property that is read. -/
def property : PropertyExpression → PropertyId
  | .named p | .inverse p => p

/-- The property is read backwards. -/
def isInverse : PropertyExpression → Bool
  | .named _ => false
  | .inverse _ => true

/-- The same property read in the other direction. -/
def reversed : PropertyExpression → PropertyExpression
  | .named p => .inverse p
  | .inverse p => .named p

/-- Reading a property in the other direction twice changes nothing. -/
@[simp] theorem reversed_reversed (r : PropertyExpression) : r.reversed.reversed = r := by
  cases r <;> rfl

@[simp] theorem property_reversed (r : PropertyExpression) : r.reversed.property = r.property := by
  cases r <;> rfl

end PropertyExpression

/-! ### Expressions -/

mutual

/-- A description of a set of individuals. -/
inductive ClassExpression where
  /-- Every individual. -/
  | thing
  /-- No individual. -/
  | nothing
  | named (c : ClassId)
  /-- The individuals of all of the parts. -/
  | and (parts : List ClassExpression)
  /-- The individuals of at least one of the parts. -/
  | or (parts : List ClassExpression)
  /-- The individuals outside. -/
  | not (inner : ClassExpression)
  /-- The listed individuals. -/
  | oneOf (members : List IndividualId)
  /-- The individuals that the property relates to what the filler asks for. -/
  | restriction (property : PropertyExpression) (quantifier : Quantifier) (filler : Filler)

/-- What a restriction asks for. -/
inductive Filler where
  | expression (e : ClassExpression)
  | individual (i : IndividualId)
  | literal (l : Literal)
  | datatype (d : Datatype)

end

deriving instance Repr for ClassExpression, Filler
deriving instance Inhabited for ClassExpression, Filler

/-! ### Decidable equality -/

mutual

/-- The test for equal expressions. -/
def ClassExpression.same : ClassExpression → ClassExpression → Bool
  | .thing, .thing => true
  | .nothing, .nothing => true
  | .named a, .named b => a = b
  | .and as, .and bs => ClassExpression.sameParts as bs
  | .or as, .or bs => ClassExpression.sameParts as bs
  | .not a, .not b => a.same b
  | .oneOf as, .oneOf bs => as = bs
  | .restriction p q f, .restriction p' q' f' => p = p' && q = q' && f.same f'
  | _, _ => false
termination_by structural a => a

/-- The test for equal lists of expressions. -/
def ClassExpression.sameParts : List ClassExpression → List ClassExpression → Bool
  | [], [] => true
  | a :: as, b :: bs => a.same b && ClassExpression.sameParts as bs
  | _, _ => false
termination_by structural a => a

/-- The test for equal fillers. -/
def Filler.same : Filler → Filler → Bool
  | .expression a, .expression b => a.same b
  | .individual a, .individual b => a = b
  | .literal a, .literal b => a = b
  | .datatype a, .datatype b => a = b
  | _, _ => false
termination_by structural a => a

end

mutual

theorem ClassExpression.same_iff : ∀ a b : ClassExpression, a.same b = true ↔ a = b
  | .thing, b => by cases b <;> simp [ClassExpression.same]
  | .nothing, b => by cases b <;> simp [ClassExpression.same]
  | .named _, b => by cases b <;> simp [ClassExpression.same]
  | .and as, b => by
    cases b <;> simp [ClassExpression.same, ClassExpression.sameParts_iff as]
  | .or as, b => by
    cases b <;> simp [ClassExpression.same, ClassExpression.sameParts_iff as]
  | .not a, b => by cases b <;> simp [ClassExpression.same, ClassExpression.same_iff a]
  | .oneOf _, b => by cases b <;> simp [ClassExpression.same]
  | .restriction _ _ f, b => by
    cases b <;> simp [ClassExpression.same, Filler.same_iff f, and_assoc]
termination_by structural a => a

theorem ClassExpression.sameParts_iff :
    ∀ as bs : List ClassExpression, ClassExpression.sameParts as bs = true ↔ as = bs
  | [], bs => by cases bs <;> simp [ClassExpression.sameParts]
  | a :: as, bs => by
    cases bs <;>
      simp [ClassExpression.sameParts, ClassExpression.same_iff a,
        ClassExpression.sameParts_iff as]
termination_by structural a => a

theorem Filler.same_iff : ∀ a b : Filler, a.same b = true ↔ a = b
  | .expression a, b => by cases b <;> simp [Filler.same, ClassExpression.same_iff a]
  | .individual _, b => by cases b <;> simp [Filler.same]
  | .literal _, b => by cases b <;> simp [Filler.same]
  | .datatype _, b => by cases b <;> simp [Filler.same]
termination_by structural a => a

end

instance : DecidableEq ClassExpression :=
  fun a b => decidable_of_iff _ (ClassExpression.same_iff a b)

instance : DecidableEq Filler :=
  fun a b => decidable_of_iff _ (Filler.same_iff a b)

/-! ### Restrictions -/

/-- The individuals that a property relates to what the filler asks for. -/
structure Restriction where
  property : PropertyExpression
  quantifier : Quantifier
  filler : Filler
  deriving DecidableEq, Repr, Inhabited

namespace Restriction

/-- A restriction as an expression. -/
def toExpression (r : Restriction) : ClassExpression :=
  .restriction r.property r.quantifier r.filler

end Restriction

namespace ClassExpression

/-- The class of a named expression. -/
def named? : ClassExpression → Option ClassId
  | .named c => some c
  | _ => none

/-- The restriction that an expression consists of. -/
def restriction? : ClassExpression → Option Restriction
  | .restriction property quantifier filler => some ⟨property, quantifier, filler⟩
  | _ => none

end ClassExpression

mutual

/-- The layers of a restriction that an expression consists of, from the outside in. -/
def ClassExpression.layers : ClassExpression → List (PropertyExpression × Quantifier)
  | .restriction property quantifier filler => (property, quantifier) :: filler.layers
  | _ => []
termination_by structural e => e

/-- The layers inside a filler. -/
def Filler.layers : Filler → List (PropertyExpression × Quantifier)
  | .expression e => e.layers
  | _ => []
termination_by structural e => e

end

mutual

/-- The filler below all restrictions inside an expression. -/
def ClassExpression.innermost : ClassExpression → Filler
  | .restriction _ _ filler => filler.innermost
  | .thing => .expression .thing
  | .nothing => .expression .nothing
  | .named c => .expression (.named c)
  | .and parts => .expression (.and parts)
  | .or parts => .expression (.or parts)
  | .not inner => .expression (.not inner)
  | .oneOf members => .expression (.oneOf members)
termination_by structural e => e

/-- The filler below all restrictions inside a filler. -/
def Filler.innermost : Filler → Filler
  | .expression e => e.innermost
  | .individual i => .individual i
  | .literal l => .literal l
  | .datatype d => .datatype d
termination_by structural e => e

end

namespace Restriction

/-- The properties and quantifiers of the layers, from the outside in. -/
def chain (r : Restriction) : List (PropertyExpression × Quantifier) :=
  (r.property, r.quantifier) :: r.filler.layers

/-- The number of layers. -/
def depth (r : Restriction) : Nat :=
  r.chain.length

/-- What the innermost layer asks for. -/
def terminal (r : Restriction) : Filler :=
  r.filler.innermost

end Restriction

/-! ### Values -/

/-- What a property relates an individual to. -/
inductive Value where
  | individual (i : IndividualId)
  | expression (e : ClassExpression)
  | literal (l : Literal)
  deriving DecidableEq, Repr, Inhabited

namespace Value

/-- The marker that there is no value. -/
def nothing : Value := .expression .nothing

/-- The value is the marker that there is none. -/
def isNothing : Value → Bool
  | .expression .nothing => true
  | _ => false

/-- The individual that a value is. -/
def individual? : Value → Option IndividualId
  | .individual i => some i
  | _ => none

/-- The literal that a value is. -/
def literal? : Value → Option Literal
  | .literal l => some l
  | _ => none

end Value

end Ontology
