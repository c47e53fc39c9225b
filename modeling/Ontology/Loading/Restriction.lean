import Ontology.Loading.Term

/-!
# Restrictions in documents

A restriction is written as nested mappings, one for each layer, such as
`lives_in: some: has_color: value: red`; a role may stand below `Inverse`.

## Main definitions

* `World.readRestriction` — the restriction that a tree stands for.
* `Term.toFiller` — what the innermost layer asks for.
-/

namespace Ontology

/-- What a restriction whose innermost value is the term asks for. -/
def Term.toFiller : Term → Loading Filler
  | .entity _ (.individual i) => .ok (.individual i)
  | .entity _ (.class c) => .ok (.expression (.named c))
  | .entity _ .thing => .ok (.expression .thing)
  | .entity _ .nothing => .ok (.expression .nothing)
  | .entity _ (.datatype d) => .ok (.datatype d)
  | .entity name _ => (LoadFault.badTarget name).raise
  | .literal l => .ok (.literal l)
  | .unresolved text => .ok (.literal (.text text))

namespace World

/-- The property of a role name; another entity of this name fails with `otherwise`. -/
def role (w : World) (name : String) (otherwise : LoadFault) : Loading PropertyId :=
  match w.lookup? name with
  | some (.property p) => .ok p
  | some _ => otherwise.raise
  | none => (LoadFault.badName (.unknown name)).raise

/-- The quantifier of a word that follows a role name. -/
def quantifierAfter (w : World) (role word : String) : Loading Quantifier :=
  match w.lookup? word with
  | some (.quantifier q) => .ok q
  | _ => (LoadFault.badQuantifier role word).raise

mutual

/-- The restriction of a tree: a role with its quantified part, or such a mapping below
`Inverse`. -/
def readRestriction (w : World) : Tree → Loading Restriction
  | .mapping [(.string key, value)] =>
    if key = "Inverse" then
      match value with
      | .mapping [(.string role, inner)] => do
        let p ← w.role role (.roleAfterInverse role)
        readQuantified w role (.inverse p) inner
      | value => (Shape.singleFault value).raise
    else do
      let p ← w.role key (.notRole key)
      readQuantified w key (.named p) value
  | t => (Shape.singleFault t).raise
termination_by structural t => t

/-- The restriction of a property to what a tree asks for: a quantifier with a further layer or a
scalar. -/
def readQuantified (w : World) (role : String) (property : PropertyExpression) :
    Tree → Loading Restriction
  | .mapping [(.string word, target)] => do
    let quantifier ← w.quantifierAfter role word
    match target with
    | .mapping entries =>
      match quantifier with
      | .some => do
        let inner ← readRestriction w (.mapping entries)
        return ⟨property, .some, .expression inner.toExpression⟩
      | .value =>
        (LoadFault.valueNotScalar quantifier.name (Tree.mapping entries).render).raise
    | target => do
      let term ← w.resolve true target
      return ⟨property, quantifier, ← term.toFiller⟩
  | t =>
    if t.isMapping then (Shape.singleFault t).raise
    else (LoadFault.notQuantified role t.render).raise
termination_by structural t => t

end

end World

end Ontology
