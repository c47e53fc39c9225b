import Ontology.Loading.Facts
import Ontology.Loading.Restriction
import Ontology.Proofs.Vocabulary
import Ontology.Rule.Reader

/-!
# References

An ontology refers to its entities by their places.  Every part of a document that is read, be it
an expression, a value, a restriction or a rule, refers to entities only through names, which the
ontology offers itself or through an import.

## Main definitions

* `Reference` — a class, a property or an individual, by its place.
* `ClassExpression.references`, `Rule.references` and the like — what a part of an ontology refers
  to, at any depth; `World.references` — what an ontology refers to.
* `World.Offers` — some name stands for the entity.

## Main results

* `Node.references_of_toClassExpression` and its companions — what a node means refers to what the
  node names.
* `World.offers_of_readKeywords`, `World.offers_of_readRestriction`, `World.offers_of_readRule` —
  **what is read from a document refers to what the ontology offers.**
-/

namespace Ontology

/-- A reference to an entity by its place. -/
inductive Reference where
  | class (c : ClassId)
  | property (p : PropertyId)
  | individual (i : IndividualId)
  deriving DecidableEq, Repr, Inhabited

/-- The entity of a reference. -/
def Reference.entity : Reference → Entity
  | .class c => .class c
  | .property p => .property p
  | .individual i => .individual i

/-! ### What refers to what -/

mutual

/-- What an expression refers to, at any depth. -/
def ClassExpression.references : ClassExpression → List Reference
  | .thing | .nothing => []
  | .named c => [.class c]
  | .and parts => ClassExpression.referencesOfParts parts
  | .or parts => ClassExpression.referencesOfParts parts
  | .not inner => inner.references
  | .oneOf members => members.map .individual
  | .restriction property _ filler => .property property.property :: filler.references
termination_by structural e => e

/-- What expressions refer to. -/
def ClassExpression.referencesOfParts : List ClassExpression → List Reference
  | [] => []
  | part :: rest => part.references ++ ClassExpression.referencesOfParts rest
termination_by structural parts => parts

/-- What a filler refers to. -/
def Filler.references : Filler → List Reference
  | .expression e => e.references
  | .individual i => [.individual i]
  | .literal _ | .datatype _ => []
termination_by structural f => f

end

/-- What a value refers to. -/
def Value.references : Value → List Reference
  | .individual i => [.individual i]
  | .expression e => e.references
  | .literal _ => []

/-- What an argument of an atom refers to. -/
def Argument.references : Argument → List Reference
  | .individual i => [.individual i]
  | .variable _ | .literal _ => []

/-- What an atom refers to. -/
def Atom.references : Atom → List Reference
  | .type c a => .class c :: a.references
  | .fact p s o => .property p :: (s.references ++ o.references)
  | .same a b | .different a b => a.references ++ b.references

/-- What a rule refers to. -/
def Rule.references (r : Rule) : List Reference :=
  (r.body ++ r.head).flatMap Atom.references

/-- What a class refers to. -/
def Class.references (c : Class) : List Reference :=
  (c.isA ++ c.equivalentTo).flatMap ClassExpression.references

/-- What a range refers to. -/
def PropertyRange.references : PropertyRange → List Reference
  | .classes es => es.flatMap ClassExpression.references
  | .datatypes _ => []

/-- What a property refers to. -/
def Property.references (p : Property) : List Reference :=
  p.domain.flatMap ClassExpression.references ++ p.range.references
    ++ (p.inverseOf.toList ++ p.parents).map .property

/-- What the rows of values refer to. -/
def Assertions.references (a : Assertions) : List Reference :=
  a.rows.flatMap fun (p, values) => .property p :: values.flatMap Value.references

/-- What an individual refers to. -/
def Individual.references (i : Individual) : List Reference :=
  i.isA.flatMap ClassExpression.references ++ i.facts.references ++ i.inferredFacts.references
    ++ i.inferredTypes.map .class

/-- What the table of an import refers to. -/
def Import.references (i : Import) : List Reference :=
  i.classes.map fun row => .class row.2

/-- What an ontology refers to. -/
def World.references (w : World) : List Reference :=
  w.classes.toList.flatMap Class.references
    ++ w.properties.toList.flatMap Property.references
    ++ w.individuals.toList.flatMap Individual.references
    ++ w.rules.toList.flatMap Rule.references
    ++ w.imports.toList.flatMap Import.references
    ++ w.differentIndividuals.flatten.map .individual

/-- What an entity is as a reference. -/
def Entity.references : Entity → List Reference
  | .class c => [.class c]
  | .property p => [.property p]
  | .individual i => [.individual i]
  | .rule _ | .thing | .nothing | .datatype _ | .characteristic _ | .connective _ | .quantifier _
  | .inverse => []

theorem Entity.mem_references {e : Entity} {r : Reference} : r ∈ e.references ↔ e = r.entity := by
  cases e <;> cases r <;> simp [references, Reference.entity, eq_comm]

/-- What a term refers to. -/
def Term.references (t : Term) : List Reference :=
  t.entity?.elim [] Entity.references

/-- What a node refers to, at any depth. -/
def Node.references (n : Node) : List Reference :=
  n.terms.flatMap Term.references

/-! ### Nodes -/

namespace Node

@[simp] theorem references_term (t : Term) : (Node.term t).references = t.references := by
  rw [references, terms, List.flatMap_singleton]

@[simp] theorem references_data (n : Node) : n.data.references = n.references := by
  rw [references, terms_data, references]

@[simp] theorem references_container (keyword : String) (data : Node) :
    (Node.container keyword data).references = data.references := by
  rw [references, terms, references]

theorem mem_references_combination {kind : Combination} {items : List Node} {r : Reference} :
    r ∈ (Node.combination kind items).references ↔ ∃ n ∈ items, r ∈ n.references := by
  simp only [references, terms, List.mem_flatMap, mem_termsOfAll]
  grind

theorem mem_references_list {items : List Node} {r : Reference} :
    r ∈ (Node.list items).references ↔ ∃ n ∈ items, r ∈ n.references := by
  simp only [references, terms, List.mem_flatMap, mem_termsOfAll]
  grind

theorem mem_references_pairs {entries : List (Term × PairValue)} {r : Reference} :
    r ∈ (Node.pairs entries).references ↔ ∃ entry ∈ entries,
      r ∈ entry.1.references ∨ ∃ t ∈ entry.2.terms, r ∈ t.references := by
  simp only [references, terms, List.mem_flatMap, List.mem_cons]
  constructor
  · rintro ⟨t, ⟨entry, hentry, rfl | ht⟩, hr⟩
    · exact ⟨entry, hentry, .inl hr⟩
    · exact ⟨entry, hentry, .inr ⟨t, ht, hr⟩⟩
  · rintro ⟨entry, hentry, hr | ⟨t, ht, hr⟩⟩
    · exact ⟨entry.1, ⟨entry, hentry, .inl rfl⟩, hr⟩
    · exact ⟨t, ⟨entry, hentry, .inr ht⟩, hr⟩

/-- The elements of a node refer to what the node refers to. -/
theorem references_of_mem_items {n : Node} : ∀ {m : Node}, m ∈ n.items →
    m.references ⊆ n.references := by
  intro m hm
  cases n with
  | list items => exact fun r hr => mem_references_list.mpr ⟨m, hm, hr⟩
  | container keyword data =>
    rw [references_container]
    exact references_of_mem_items (n := data) hm
  | term _ | raw _ | pairs _ | combination _ _ =>
    rw [List.mem_singleton.mp hm]
    exact List.Subset.refl _
termination_by structural n

end Node

/-! ### Meanings -/

theorem Term.references_of_toClassExpression {t : Term} {e : ClassExpression}
    (h : t.toClassExpression = .ok e) : e.references ⊆ t.references := by
  rw [toClassExpression] at h
  split at h
  · next c hc =>
    rw [← Except.ok.inj h, references, hc]
    exact List.Subset.refl _
  · rw [← Except.ok.inj h]
    exact List.nil_subset _
  · rw [← Except.ok.inj h]
    exact List.nil_subset _
  · simp at h

namespace Node

theorem references_of_toIndividual {n : Node} {i : IndividualId} (h : n.toIndividual = .ok i) :
    .individual i ∈ n.references := by
  rw [toIndividual.eq_def] at h
  split at h
  · rw [← Except.ok.inj h, references_term]
    exact List.mem_singleton_self _
  · simp at h

/-- The members of an enumeration are individuals that its elements name. -/
theorem references_of_toIndividuals {items : List Node} {members : List IndividualId}
    (h : items.mapM toIndividual = .ok members) :
    (ClassExpression.oneOf members).references ⊆ (Node.combination .oneOf items).references := by
  intro r hr
  obtain ⟨i, hi, rfl⟩ := List.mem_map.mp hr
  obtain ⟨n, hn, hni⟩ := exists_of_forall₂_right (mapM_eq_ok h) hi
  exact mem_references_combination.mpr ⟨n, hn, references_of_toIndividual hni⟩

mutual

theorem references_of_bareExpression : ∀ {n : Node} {e : ClassExpression},
    n.bareExpression = .ok e → e.references ⊆ n.references
  | .term t, e, h => by
    rw [references_term]
    exact Term.references_of_toClassExpression h
  | .combination .or items, e, h | .combination .and items, e, h => by
    rw [bareExpression] at h
    obtain ⟨parts, hparts, h⟩ := exists_of_bind_eq_ok h
    rw [← Except.ok.inj h]
    exact fun r hr => mem_references_combination.mpr (references_of_toClassExpressions hparts r hr)
  | .combination .oneOf items, e, h => by
    rw [bareExpression] at h
    obtain ⟨members, hmembers, h⟩ := exists_of_bind_eq_ok h
    rw [← Except.ok.inj h]
    exact references_of_toIndividuals hmembers
  | .container _ _, _, h | .raw _, _, h | .pairs _, _, h | .list _, _, h => by
    simp [bareExpression] at h
termination_by structural n => n

/-- The expression that a node means refers to what the node names. -/
theorem references_of_toClassExpression : ∀ {n : Node} {e : ClassExpression},
    n.toClassExpression = .ok e → e.references ⊆ n.references
  | .container _ data, e, h => by
    rw [references_container]
    exact references_of_bareExpression h
  | .term t, e, h => by
    rw [references_term]
    exact Term.references_of_toClassExpression h
  | .combination .or items, e, h | .combination .and items, e, h => by
    rw [toClassExpression] at h
    obtain ⟨parts, hparts, h⟩ := exists_of_bind_eq_ok h
    rw [← Except.ok.inj h]
    exact fun r hr => mem_references_combination.mpr (references_of_toClassExpressions hparts r hr)
  | .combination .oneOf items, e, h => by
    rw [toClassExpression] at h
    obtain ⟨members, hmembers, h⟩ := exists_of_bind_eq_ok h
    rw [← Except.ok.inj h]
    exact references_of_toIndividuals hmembers
  | .raw _, _, h | .pairs _, _, h | .list _, _, h => by
    simp [toClassExpression] at h
termination_by structural n => n

theorem references_of_toClassExpressions : ∀ {ns : List Node} {es : List ClassExpression},
    toClassExpressions ns = .ok es →
      ∀ r ∈ ClassExpression.referencesOfParts es, ∃ n ∈ ns, r ∈ n.references
  | [], es, h => by
    rw [toClassExpressions, Except.ok.injEq] at h
    simp [← h, ClassExpression.referencesOfParts]
  | n :: rest, es, h => by
    rw [toClassExpressions] at h
    obtain ⟨e, he, h⟩ := exists_of_bind_eq_ok h
    obtain ⟨others, hothers, h⟩ := exists_of_bind_eq_ok h
    rw [← Except.ok.inj h, ClassExpression.referencesOfParts]
    intro r hr
    rcases List.mem_append.mp hr with hr | hr
    · exact ⟨n, List.mem_cons_self, references_of_toClassExpression he hr⟩
    · obtain ⟨m, hm, hr⟩ := references_of_toClassExpressions hothers r hr
      exact ⟨m, List.mem_cons_of_mem _ hm, hr⟩
termination_by structural ns => ns

end

/-- A parent or a type is a class that the node names, or the class of all things. -/
theorem eq_of_toNamedClass {n : Node} {e : ClassExpression} (h : n.toNamedClass = .ok e) :
    e.references ⊆ n.references ∧ (e = .thing ∨ ∃ c, e = .named c) := by
  cases n with
  | term t =>
    obtain ⟨e', he', h⟩ := exists_of_bind_eq_ok h
    have hrefs : e'.references ⊆ (Node.term t).references := by
      rw [references_term]
      exact Term.references_of_toClassExpression he'
    rw [Term.toClassExpression] at he'
    split at he'
    · cases he'
      cases h
      exact ⟨hrefs, .inr ⟨_, rfl⟩⟩
    · cases he'
      cases h
      exact ⟨hrefs, .inl rfl⟩
    · cases he'
      simp at h
    · simp at he'
  | _ => simp [toNamedClass] at h

theorem references_of_toProperty {n : Node} {p : PropertyId} (h : n.toProperty = .ok p) :
    .property p ∈ n.references := by
  obtain ⟨name, hname⟩ := exists_term_of_toProperty h
  exact List.mem_flatMap.mpr ⟨_, hname, List.mem_singleton_self _⟩

theorem references_of_toDomain {n : Node} {es : List ClassExpression} (h : n.toDomain = .ok es) :
    es.flatMap ClassExpression.references ⊆ n.references := by
  obtain ⟨e, he, h⟩ := exists_of_bind_eq_ok h
  rw [← Except.ok.inj h, List.flatMap_singleton]
  exact references_of_toClassExpression he

/-- A range is one expression, or datatypes of which there is at least one. -/
theorem eq_of_toRange {n : Node} {range : PropertyRange} (h : n.toRange = .ok range) :
    range.references ⊆ n.references ∧
      ((∃ e, range = .classes [e]) ∨ ∃ ds, ds ≠ [] ∧ range = .datatypes ds) := by
  rw [toRange.eq_def] at h
  extract_lets alternatives datatypes at h
  split at h
  · obtain ⟨e, he, h⟩ := exists_of_bind_eq_ok h
    rw [← Except.ok.inj h, PropertyRange.references, List.flatMap_singleton, ← references_data]
    exact ⟨references_of_toClassExpression he, .inl ⟨e, rfl⟩⟩
  · next hempty =>
    split at h
    · simp at h
    · rw [← Except.ok.inj h]
      exact ⟨List.nil_subset _, .inr ⟨_, fun hnil => hempty (by rw [hnil]; rfl), rfl⟩⟩

end Node

namespace World

variable {w : World} {r : Reference}

/-- What a term stands for as a value is what it refers to. -/
theorem references_of_valueOf {p : PropertyId} {t : Term} {v : Value}
    (h : w.valueOf p t = .ok v) : v.references ⊆ t.references := by
  rw [valueOf] at h
  split at h
  · rw [objectValue.eq_def] at h
    split at h
    · cases h; exact List.Subset.refl _
    · cases h; exact List.Subset.refl _
    · cases h; exact List.nil_subset _
    · cases h; exact List.nil_subset _
    · simp at h
    · simp at h
  · obtain ⟨l, -, h⟩ := exists_of_bind_eq_ok h
    split at h
    · rw [← Except.ok.inj h]
      exact List.nil_subset _
    · simp at h

/-! ### Names -/

/-- Some name stands for the entity, in the ontology itself or in an import. -/
def Offers (w : World) (r : Reference) : Prop :=
  (∃ name, w.names.get? name = some r.entity) ∨ ∃ i ∈ w.imports.toList, r ∈ i.references

theorem offers_of_lookup? {name : String} {e : Entity} (h : w.lookup? name = some e)
    (hr : r ∈ e.references) : w.Offers r := by
  rw [lookup?] at h
  split at h
  · next e' he' =>
    cases h
    exact .inl ⟨name, by rw [he', Entity.mem_references.mp hr]⟩
  · simp only [Option.bind_eq_bind, Option.bind_eq_some_iff, Option.map_eq_some_iff] at h
    obtain ⟨⟨place, localName⟩, -, i, hi, c, hc, rfl⟩ := h
    obtain ⟨before, behind, hclasses, -⟩ := List.lookup_eq_some_iff.mp hc
    refine .inr ⟨i, Array.mem_toList_iff.mpr (Array.mem_of_getElem? hi), ?_⟩
    rw [Entity.references, List.mem_singleton] at hr
    rw [hr, Import.references, hclasses]
    simp

theorem offers_of_isNamed {t : Term} (h : t.IsNamed w) (hr : r ∈ t.references) : w.Offers r := by
  cases t with
  | entity name e => exact offers_of_lookup? h hr
  | literal l => exact absurd hr List.not_mem_nil
  | unresolved text => exact absurd hr List.not_mem_nil

/-- A body refers to what the ontology offers. -/
theorem offers_of_readKeywords {entries : List (Tree × Tree)} {body : List (String × Node)}
    (h : w.readKeywords entries = .ok body) {keyword : String} {n : Node}
    (hn : body.lookup keyword = some n) : ∀ r ∈ n.references, w.Offers r := by
  intro r hr
  obtain ⟨t, ht, hr⟩ := List.mem_flatMap.mp hr
  exact offers_of_isNamed (isNamed_of_readKeywords h hn t ht) hr

/-- A mapping with names as keys refers to what the ontology offers. -/
theorem offers_of_readNamed {keyword : String} {entries : List (Tree × Tree)}
    {roles : List (Term × Node)} (h : w.readNamed keyword entries = .ok roles) {role : Term}
    {n : Node} (hrole : (role, n) ∈ roles) :
    (∀ r ∈ role.references, w.Offers r) ∧ ∀ r ∈ n.references, w.Offers r := by
  obtain ⟨named, -, h⟩ := exists_of_bind_eq_ok h
  obtain ⟨⟨key, value⟩, -, hread⟩ := exists_of_forall₂_right (mapM_eq_ok h) hrole
  obtain ⟨t, ht, hread⟩ := exists_of_bind_eq_ok hread
  obtain ⟨m, hm, hread⟩ := exists_of_bind_eq_ok hread
  obtain ⟨rfl, rfl⟩ := Prod.mk.inj (Except.ok.inj hread)
  refine ⟨fun r hr => offers_of_isNamed (isNamed_of_resolveName ht) hr, fun r hr => ?_⟩
  obtain ⟨t', ht', hr⟩ := List.mem_flatMap.mp hr
  exact offers_of_isNamed (isNamed_of_applyKeyword hm t' ht') hr

/-! ### Restrictions -/

theorem references_of_toFiller {t : Term} {f : Filler} (h : t.toFiller = .ok f) :
    f.references ⊆ t.references := by
  rw [Term.toFiller.eq_def] at h
  split at h
  · cases h; exact List.Subset.refl _
  · cases h; exact List.Subset.refl _
  · cases h; exact List.nil_subset _
  · cases h; exact List.nil_subset _
  · cases h; exact List.nil_subset _
  · simp at h
  · cases h; exact List.nil_subset _
  · cases h; exact List.nil_subset _

theorem offers_of_role {name : String} {otherwise : LoadFault} {p : PropertyId}
    (h : w.role name otherwise = .ok p) : w.Offers (.property p) := by
  rw [role] at h
  split at h
  · next q hq =>
    rw [← Except.ok.inj h]
    exact offers_of_lookup? hq (List.mem_singleton_self _)
  · simp at h
  · simp at h

/-- The outer layer of a restriction is a role, which may stand below `Inverse`. -/
theorem readRestriction_eq_ok {t : Tree} {restriction : Restriction}
    (h : w.readRestriction t = .ok restriction) : ∃ role property inner,
      (t = .mapping [(.string role, inner)] ∨
        t = .mapping [(.string "Inverse", .mapping [(.string role, inner)])]) ∧
      w.Offers (.property property.property) ∧
      w.readQuantified role property inner = .ok restriction := by
  unfold readRestriction at h
  split at h
  · next key value =>
    split at h
    · next hkey =>
      split at h
      · obtain ⟨p, hp, h⟩ := exists_of_bind_eq_ok h
        exact ⟨_, .inverse p, _, .inr (by rw [hkey]), offers_of_role hp, h⟩
      · simp at h
    · obtain ⟨p, hp, h⟩ := exists_of_bind_eq_ok h
      exact ⟨_, .named p, _, .inl rfl, offers_of_role hp, h⟩
  · simp at h

/-- The filler of a layer is another layer or a term. -/
theorem readQuantified_eq_ok {role : String} {property : PropertyExpression} {t : Tree}
    {restriction : Restriction} (h : w.readQuantified role property t = .ok restriction) :
    ∃ word target, t = .mapping [(.string word, target)] ∧
      ((∃ inner, w.readRestriction target = .ok inner ∧
          restriction = ⟨property, .some, .expression inner.toExpression⟩) ∨
        ∃ term quantifier filler, w.resolve true target = .ok term ∧
          term.toFiller = .ok filler ∧ restriction = ⟨property, quantifier, filler⟩) := by
  unfold readQuantified at h
  split at h
  · next word target =>
    obtain ⟨quantifier, -, h⟩ := exists_of_bind_eq_ok h
    refine ⟨word, target, rfl, ?_⟩
    split at h
    · split at h
      · obtain ⟨inner, hinner, h⟩ := exists_of_bind_eq_ok h
        exact .inl ⟨inner, hinner, (Except.ok.inj h).symm⟩
      · simp at h
    · obtain ⟨term, hterm, h⟩ := exists_of_bind_eq_ok h
      obtain ⟨filler, hfiller, h⟩ := exists_of_bind_eq_ok h
      exact .inr ⟨term, quantifier, filler, hterm, hfiller, (Except.ok.inj h).symm⟩
  · split at h <;> simp at h

/-- A restriction refers to what the ontology offers. -/
theorem offers_of_readRestriction {t : Tree} {restriction : Restriction}
    (h : w.readRestriction t = .ok restriction) :
    ∀ r ∈ restriction.toExpression.references, w.Offers r := by
  obtain ⟨role, property, inner, ht, hproperty, h⟩ := readRestriction_eq_ok h
  obtain ⟨word, target, hinner, hlayers⟩ := readQuantified_eq_ok h
  intro r hr
  rcases hlayers with ⟨layer, hlayer, rfl⟩ | ⟨term, quantifier, filler, hterm, hfiller, rfl⟩
  · rcases List.mem_cons.mp hr with rfl | hr
    · exact hproperty
    · exact offers_of_readRestriction hlayer r hr
  · rcases List.mem_cons.mp hr with rfl | hr
    · exact hproperty
    · exact offers_of_isNamed (isNamed_of_resolve hterm) (references_of_toFiller hfiller hr)
termination_by sizeOf t
decreasing_by
  rcases ht with rfl | rfl <;> simp +arith [hinner]

end World

/-! ### Rules -/

namespace RuleReader

variable {reader : RuleReader}

@[simp] theorem fail_ne_ok {α : Type} {problem : String} {position : Nat} {a : α} :
    (reader.fail problem position : Loading α) ≠ .ok a :=
  LoadFault.raise_ne_ok

theorem offers_of_argument {left : List RuleToken} {a : Argument}
    (h : reader.argument left = .ok a) : ∀ r ∈ a.references, reader.world.Offers r := by
  intro r hr
  rw [argument.eq_def] at h
  split at h
  · cases h; exact absurd hr List.not_mem_nil
  · cases h; exact absurd hr List.not_mem_nil
  · split at h
    · split at h
      · cases h; exact absurd hr List.not_mem_nil
      · simp at h
    · simp at h
  · split at h
    · cases h; exact absurd hr List.not_mem_nil
    · simp at h
  · cases h; exact absurd hr List.not_mem_nil
  · cases h; exact absurd hr List.not_mem_nil
  · -- only a name can stand for an individual
    split at h
    · next i hi =>
      cases h
      exact World.offers_of_lookup? hi hr
    · simp at h
    · simp at h
  · simp at h

theorem offers_of_arguments {left : List RuleToken} {others : List Argument × Rest left}
    (h : reader.arguments left = .ok others) :
    ∀ a ∈ others.1, ∀ r ∈ a.references, reader.world.Offers r := by
  induction left using arguments.induct with
  | case1 => simp [arguments] at h
  | case2 t rest ih =>
    rw [arguments] at h
    obtain ⟨b, hb, h⟩ := exists_of_bind_eq_ok h
    obtain ⟨⟨more, left⟩, hmore, h⟩ := exists_of_bind_eq_ok h
    rw [← Except.ok.inj h]
    intro a ha
    rcases List.mem_cons.mp ha with rfl | ha
    · exact offers_of_argument hb
    · exact ih hmore a ha
  | case3 left h₁ h₂ =>
    rw [arguments.eq_def] at h
    split at h
    · exact absurd rfl h₁
    · next t rest => exact absurd rfl (h₂ t rest)
    · rw [← Except.ok.inj h]
      simp

theorem offers_of_atomOf {predicate : String} {position : Nat} {args : List Argument} {a : Atom}
    (hargs : ∀ arg ∈ args, ∀ r ∈ arg.references, reader.world.Offers r)
    (h : reader.atomOf predicate position args = .ok a) :
    ∀ r ∈ a.references, reader.world.Offers r := by
  intro r hr
  rw [atomOf.eq_def] at h
  split at h
  · next x =>
    split at h
    · next c hc =>
      cases h
      rcases List.mem_cons.mp hr with rfl | hr
      · exact World.offers_of_lookup? hc (List.mem_singleton_self _)
      · exact hargs x (by simp) r hr
    · simp at h
    · simp at h
  · next x y =>
    -- all that is left refers to the arguments, but for the name of a property
    have hboth : r ∈ x.references ++ y.references → reader.world.Offers r := fun hr =>
      (List.mem_append.mp hr).elim (hargs x (by simp) r) (hargs y (by simp) r)
    split at h
    · cases h
      exact hboth hr
    split at h
    · cases h
      exact hboth hr
    split at h
    · next p hp =>
      cases h
      rcases List.mem_cons.mp hr with rfl | hr
      · exact World.offers_of_lookup? hp (List.mem_singleton_self _)
      · exact hboth hr
    · simp at h
    · simp at h
  · simp at h

theorem offers_of_atom {left : List RuleToken} {a : Atom × Shorter left}
    (h : reader.atom left = .ok a) : ∀ r ∈ a.1.references, reader.world.Offers r := by
  rw [atom.eq_def] at h
  split at h
  · next predicate args =>
    obtain ⟨first, hfirst, h⟩ := exists_of_bind_eq_ok h
    obtain ⟨⟨others, ⟨left, hleft⟩⟩, hothers, h⟩ := exists_of_bind_eq_ok h
    dsimp only at h
    split at h
    · obtain ⟨b, hb, h⟩ := exists_of_bind_eq_ok h
      rw [← Except.ok.inj h]
      refine offers_of_atomOf (fun arg harg => ?_) hb
      rcases List.mem_cons.mp harg with rfl | harg
      · exact offers_of_argument hfirst
      · exact offers_of_arguments hothers arg harg
    · simp at h
  · simp at h
  · simp at h

theorem offers_of_moreAtoms {left : List RuleToken} {found : List Atom × List RuleToken}
    (h : reader.moreAtoms left = .ok found) :
    ∀ a ∈ found.1, ∀ r ∈ a.references, reader.world.Offers r := by
  induction left using moreAtoms.induct generalizing found with
  | case1 =>
    rw [moreAtoms] at h
    rw [← Except.ok.inj h]
    simp
  | case2 rest =>
    rw [moreAtoms] at h
    rw [← Except.ok.inj h]
    simp
  | case3 t rest harrow ht ih =>
    rw [moreAtoms, if_pos ht] at h
    swap
    · exact harrow
    obtain ⟨⟨b, ⟨left, hleft⟩⟩, hb, h⟩ := exists_of_bind_eq_ok h
    obtain ⟨⟨others, last⟩, hothers, h⟩ := exists_of_bind_eq_ok h
    rw [← Except.ok.inj h]
    intro a ha
    rcases List.mem_cons.mp ha with rfl | ha
    · exact offers_of_atom hb
    · exact ih left hleft hothers a ha
  | case4 t rest harrow ht =>
    rw [moreAtoms, if_neg ht] at h
    · simp at h
    · exact harrow

theorem offers_of_atoms {left : List RuleToken} {found : List Atom × List RuleToken}
    (h : reader.atoms left = .ok found) :
    ∀ a ∈ found.1, ∀ r ∈ a.references, reader.world.Offers r := by
  rw [atoms.eq_def] at h
  split at h
  · rw [← Except.ok.inj h]
    simp
  · rw [← Except.ok.inj h]
    simp
  · obtain ⟨⟨b, left⟩, hb, h⟩ := exists_of_bind_eq_ok h
    obtain ⟨⟨others, last⟩, hothers, h⟩ := exists_of_bind_eq_ok h
    rw [← Except.ok.inj h]
    intro a ha
    rcases List.mem_cons.mp ha with rfl | ha
    · exact offers_of_atom hb
    · exact offers_of_moreAtoms hothers a ha

end RuleReader

/-- A rule refers to what the ontology offers. -/
theorem World.offers_of_readRule {w : World} {name source : String} {label : Option String}
    {rule : Rule} (h : w.readRule name source label = .ok rule) :
    ∀ r ∈ rule.references, w.Offers r := by
  rw [readRule] at h
  split at h
  · simp at h
  · next ts _ =>
    obtain ⟨⟨body, head⟩, hboth, h⟩ := exists_of_bind_eq_ok h
    obtain ⟨⟨read, left⟩, hbody, hboth⟩ := exists_of_bind_eq_ok hboth
    dsimp only at hboth
    split at hboth
    · next _ _ left' heq =>
      obtain ⟨rfl, -⟩ := Prod.mk.inj heq
      obtain ⟨⟨found, last⟩, hhead, hboth⟩ := exists_of_bind_eq_ok hboth
      split at hboth
      · simp at hboth
      split at hboth
      · simp at hboth
      obtain ⟨rfl, rfl⟩ := Prod.mk.inj (Except.ok.inj hboth)
      rw [← Except.ok.inj h]
      intro r hr
      obtain ⟨a, ha, hr⟩ := List.mem_flatMap.mp hr
      rcases List.mem_append.mp ha with ha | ha
      · exact RuleReader.offers_of_atoms hbody a ha r hr
      · exact RuleReader.offers_of_atoms hhead a ha r hr
    · simp at hboth

end Ontology
