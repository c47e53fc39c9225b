import Mathlib.Data.Fintype.Card
import Mathlib.Tactic.Choose
import Std.Data.String.ToInt
import Ontology.Proofs.Export

/-!
# Reading expressions back

The predicates and the nodes that an expression is written with tell which expression it was.  So an
expression is found again in every graph that holds it apart, and expressions that are written alike
are the same.  Fractions are left out: their texts do not tell them apart.

## Main definitions

* `World.readExpression` — the expression that starts at a node of a graph.
* `Rdf.Triple.relabel` — a triple with other labels for its blank nodes.

## Main results

* `World.Encodes.height_le` — no expression is nested deeper than its graph has triples.
* `World.readExpression_of_encodes` — **what a graph holds at a node is read back from there.**
* `World.Encodes.relabel` — labels of blank nodes do not matter.
* `World.readExpression_written` — **expressions are read back from any graph that they are written
  to, and from the graph of an ontology; different ones are never written alike.**
-/

namespace Ontology

/-! ### Reading a graph -/

namespace Rdf

/-- The label of a blank node. -/
def Term.label? : Term → Option BlankLabel
  | .resource (.blank label) => some label
  | _ => none

/-- The IRI of a node. -/
def Term.iri? : Term → Option String
  | .resource (.iri text) => some text
  | _ => none

namespace Graph

/-- The object of a predicate for a blank node. -/
def object? (g : Graph) (label : BlankLabel) (predicate : String) : Option Term :=
  (g.triples.find? fun t => t.subject = .blank label ∧ t.predicate = predicate).map Triple.object

/-- The items of the list that starts at a node, if they are fewer than a limit. -/
def itemsWithin (g : Graph) : Nat → Term → Option (List Term)
  | 0, _ => none
  | limit + 1, node =>
    if node = .iri rdf.nil then some []
    else do
      let label ← node.label?
      let item ← g.object? label rdf.first
      let next ← g.object? label rdf.rest
      return item :: (← g.itemsWithin limit next)

/-- The items of the list that starts at a node.  Each item takes triples of its own. -/
def items? (g : Graph) (node : Term) : Option (List Term) :=
  g.itemsWithin (g.triples.length + 1) node

/-- The quantifier of a restriction and the node of its filler. -/
def quantified? (g : Graph) (label : BlankLabel) : Option (Quantifier × Term) :=
  ((g.object? label owl.someValuesFrom).map (Quantifier.some, ·))
    <|> ((g.object? label owl.hasValue).map (Quantifier.value, ·))

end Graph

end Rdf

/-- The datatype with an IRI. -/
def Datatype.ofIri? (iri : String) : Option Datatype :=
  [Datatype.int, .float, .text, .bool].find? (·.iri = iri)

/-- The literal that a literal of a graph was written for; fractions are not read. -/
def Literal.ofRdf? : Rdf.Literal → Option Literal
  | .typed value datatype =>
    match Datatype.ofIri? datatype with
    | some .text => some (.text value)
    | some .int => value.toInt?.map .int
    | some .bool => ([true, false].find? (Tree.boolText · = value)).map .bool
    | _ => none
  | .tagged _ _ => none

namespace World

variable (w : World) (g : Rdf.Graph)

/-- The expression that a name stands for. -/
def namedExpression? (iri : String) : Option ClassExpression :=
  if iri = Rdf.owl.thing then some .thing
  else if iri = Rdf.owl.nothing then some .nothing
  else
    match w.entityByIri? iri with
    | some (.class c) => some (.named c)
    | _ => none

/-- The property with an IRI. -/
def propertyByIri? (iri : String) : Option PropertyId :=
  match w.entityByIri? iri with
  | some (.property p) => some p
  | _ => none

/-- The individual with an IRI. -/
def individualByIri? (iri : String) : Option IndividualId :=
  match w.entityByIri? iri with
  | some (.individual i) => some i
  | _ => none

/-- The property at a node, read in one direction. -/
def readRole (node : Rdf.Term) : Option PropertyExpression :=
  match node.label? with
  | none => do return .named (← w.propertyByIri? (← node.iri?))
  | some label => do
    let base ← g.object? label Rdf.owl.inverseOf
    return .inverse (← w.propertyByIri? (← base.iri?))

/-- The individuals that nodes stand for. -/
def readMembers (nodes : List Rdf.Term) : Option (List IndividualId) :=
  nodes.mapM fun node => node.iri?.bind w.individualByIri?

/-- The filler at a node, if it is no expression. -/
def readPlainFiller : Rdf.Term → Option Filler
  | .literal l => (Literal.ofRdf? l).map .literal
  | .resource (.iri text) =>
    ((w.individualByIri? text).map Filler.individual) <|> ((Datatype.ofIri? text).map .datatype)
  | .resource (.blank _) => none

/-- The expression that starts at a node, if it is nested less deep than a limit. -/
def readWithin : Nat → Rdf.Term → Option ClassExpression
  | 0, _ => none
  | limit + 1, node =>
    match node.label? with
    | none => node.iri?.bind w.namedExpression?
    | some label =>
      if g.object? label Rdf.rdf.type = some (.iri Rdf.owl.restriction) then do
        let property ← w.readRole g (← g.object? label Rdf.owl.onProperty)
        let (quantifier, item) ← g.quantified? label
        match w.readPlainFiller item with
        | some filler => return .restriction property quantifier filler
        | none => return .restriction property quantifier (.expression (← readWithin limit item))
      else
        match g.object? label Rdf.owl.intersectionOf with
        | some list => do return .and (← (← g.items? list).mapM (readWithin limit))
        | none =>
          match g.object? label Rdf.owl.unionOf with
          | some list => do return .or (← (← g.items? list).mapM (readWithin limit))
          | none =>
            match g.object? label Rdf.owl.oneOf with
            | some list => do return .oneOf (← w.readMembers (← g.items? list))
            | none => do
              return .not (← readWithin limit (← g.object? label Rdf.owl.complementOf))

/-- The expression that starts at a node.  An expression takes triples of its own at each depth. -/
def readExpression (node : Rdf.Term) : Option ClassExpression :=
  w.readWithin g (g.triples.length + 1) node

end World

/-! ### Fractions and depths -/

mutual

/-- The literals of an expression, at any depth. -/
def ClassExpression.literals : ClassExpression → List Literal
  | .thing | .nothing | .named _ | .oneOf _ => []
  | .and parts | .or parts => ClassExpression.literalsOfParts parts
  | .not inner => inner.literals
  | .restriction _ _ filler => filler.literals
termination_by structural e => e

/-- The literals of expressions. -/
def ClassExpression.literalsOfParts : List ClassExpression → List Literal
  | [] => []
  | part :: rest => part.literals ++ ClassExpression.literalsOfParts rest
termination_by structural parts => parts

/-- The literals of a filler. -/
def Filler.literals : Filler → List Literal
  | .expression e => e.literals
  | .literal l => [l]
  | .individual _ | .datatype _ => []
termination_by structural f => f

end

mutual

/-- How deep an expression is nested. -/
def ClassExpression.height : ClassExpression → Nat
  | .thing | .nothing | .named _ | .oneOf _ => 0
  | .and parts | .or parts => ClassExpression.heightOfParts parts + 1
  | .not inner => inner.height + 1
  | .restriction _ _ filler => filler.height + 1
termination_by structural e => e

/-- How deep expressions are nested. -/
def ClassExpression.heightOfParts : List ClassExpression → Nat
  | [] => 0
  | part :: rest => max part.height (ClassExpression.heightOfParts rest)
termination_by structural parts => parts

/-- How deep a filler is nested. -/
def Filler.height : Filler → Nat
  | .expression e => e.height
  | .individual _ | .literal _ | .datatype _ => 0
termination_by structural f => f

end

/-! ### What is read -/

namespace Rdf.Graph

variable {g : Graph} {label : BlankLabel} {rows : List (String × Term)}

/-- The object that is found for a predicate is that of its row. -/
theorem Describes.object? (h : g.Describes label rows) (hrows : (rows.map Prod.fst).Nodup)
    (predicate : String) : g.object? label predicate = rows.lookup predicate := by
  have hfound : ∀ t, g.triples.find? (fun t => t.subject = .blank label ∧ t.predicate = predicate)
      = some t → (predicate, t.object) ∈ rows := by
    intro t ht
    obtain ⟨hsubject, hpredicate⟩ : t.subject = .blank label ∧ t.predicate = predicate := by
      simpa using List.find?_some ht
    rw [← h, ← hsubject, ← hpredicate]
    exact List.mem_of_find?_eq_some ht
  rw [Graph.object?]
  cases hlookup : rows.lookup predicate with
  | none =>
    rw [Option.map_eq_none_iff, Option.eq_none_iff_forall_ne_some]
    intro t ht
    simpa using List.lookup_eq_none_iff.mp hlookup _ (hfound t ht)
  | some object =>
    obtain ⟨before, behind, heq, -⟩ := List.lookup_eq_some_iff.mp hlookup
    have hrow : (predicate, object) ∈ rows := by simp [heq]
    have hsome : (g.triples.find? fun t =>
        t.subject = .blank label ∧ t.predicate = predicate).isSome :=
      List.find?_isSome.mpr ⟨_, (h predicate object).mpr hrow, by simp⟩
    obtain ⟨t, ht⟩ := Option.isSome_iff_exists.mp hsome
    -- no predicate has two rows
    have hsame := List.inj_on_of_nodup_map hrows (hfound t ht) hrow rfl
    rw [ht, Option.map_some, (Prod.mk.inj hsame).2]

/-- A graph has as many triples as there are different ranks of nodes that it describes. -/
theorem le_length_of_ranks (rank : BlankLabel → Nat → Prop) {n : Nat}
    (hdescribed : ∀ k < n, ∃ label, rank label k ∧ ∃ t ∈ g.triples, t.subject = .blank label)
    (hunique : ∀ label k k', rank label k → rank label k' → k = k') :
    n ≤ g.triples.length := by
  have hplace : ∀ k : Fin n, ∃ (j : Fin g.triples.length) (label : BlankLabel),
      rank label k ∧ g.triples[j].subject = .blank label := by
    intro k
    obtain ⟨label, hrank, t, ht, hsubject⟩ := hdescribed k k.isLt
    obtain ⟨j, hj, rfl⟩ := List.mem_iff_getElem.mp ht
    exact ⟨⟨j, hj⟩, label, hrank, hsubject⟩
  choose place label hrank hsubject using hplace
  -- the place of a triple gives its subject, and a node has one rank
  have hinjective : Function.Injective place := by
    intro k k' heq
    have hlabel : label k = label k' :=
      Resource.blank.inj ((hsubject k).symm.trans (heq ▸ hsubject k'))
    exact Fin.ext (hunique _ _ _ (hrank k) (hlabel ▸ hrank k'))
  simpa using Fintype.card_le_of_injective place hinjective

theorem IsList.itemsWithin : ∀ {items : List Term} {node : Term} {limit : Nat},
    g.IsList node items → items.length < limit → g.itemsWithin limit node = some items
  | [], node, limit + 1, h, _ => by
    rw [Graph.itemsWithin]
    exact if_pos h
  | item :: items, node, limit + 1, h, hlimit => by
    obtain ⟨label, next, rfl, hcell, hnext⟩ := h
    have hobject := hcell.object? (by decide : [rdf.first, rdf.rest].Nodup)
    have hfirst : g.object? label rdf.first = some item := hobject rdf.first
    have hrest : g.object? label rdf.rest = some next := hobject rdf.rest
    rw [Graph.itemsWithin, if_neg (by simp [Term.blank, Term.iri])]
    simp [Term.label?, Term.blank, hfirst, hrest, hnext.itemsWithin (Nat.lt_of_succ_lt_succ hlimit)]

/-- The lists that a list ends with start at nodes of the graph. -/
theorem IsList.exists_of_lt_length : ∀ {items : List Term} {node : Term}, g.IsList node items →
    ∀ k < items.length, ∃ label rest, g.IsList (.blank label) rest ∧ rest.length = k + 1
  | item :: items, node, h, k, hk => by
    obtain ⟨label, next, rfl, hcell, hnext⟩ := id h
    rcases Nat.lt_succ_iff_lt_or_eq.mp hk with hk | rfl
    · exact hnext.exists_of_lt_length k hk
    · exact ⟨label, item :: items, h, rfl⟩

/-- A list is not longer than its graph. -/
theorem IsList.length_le {items : List Term} {node : Term} (h : g.IsList node items) :
    items.length ≤ g.triples.length := by
  refine le_length_of_ranks
    (fun label k => ∃ rest, g.IsList (.blank label) rest ∧ rest.length = k + 1) (fun k hk => ?_) ?_
  · obtain ⟨label, rest, hrest, hlength⟩ := h.exists_of_lt_length k hk
    refine ⟨label, ⟨rest, hrest, hlength⟩, ?_⟩
    cases rest with
    | nil => cases hlength
    | cons item rest =>
      obtain ⟨label', next, heq, hcell, -⟩ := hrest
      cases heq
      exact ⟨_, (hcell rdf.first item).mpr List.mem_cons_self, rfl⟩
  · -- a node starts one list only
    rintro label k k' ⟨rest, hrest, hk⟩ ⟨rest', hrest', hk'⟩
    have hread := hrest.itemsWithin (show rest.length < max k k' + 2 by omega)
    rw [hrest'.itemsWithin (by omega)] at hread
    obtain rfl := Option.some.inj hread
    omega

theorem IsList.items? {items : List Term} {node : Term} (h : g.IsList node items) :
    g.items? node = some items :=
  h.itemsWithin (Nat.lt_succ_of_le h.length_le)

end Rdf.Graph

namespace Literal

/-- A literal that is no fraction is read back. -/
theorem ofRdf?_toRdf {l : Literal} (h : l.datatype ≠ .float) : ofRdf? l.toRdf = some l := by
  cases l with
  | int n =>
    have hread : (toString n).toInt? = some n := Int.toInt?_repr n
    exact congrArg (Option.map Literal.int) hread
  | float x => exact absurd rfl h
  | text s => rfl
  | bool b => cases b <;> rfl

end Literal

namespace World

variable {w : World} {g : Rdf.Graph} {vocabulary : List String}

/-- An IRI that is no term for datatypes is not read as one of them. -/
theorem ofIri?_eq_none {iri : String} (h : iri ∉ Rdf.xsd.terms) : Datatype.ofIri? iri = none := by
  rw [Datatype.ofIri?, List.find?_eq_none]
  intro d hd heq
  rw [← of_decide_eq_true heq] at h
  revert hd
  cases d <;> simp_all [Datatype.iri, Rdf.xsd.terms]

/-! ### Expressions -/

/-- The terms that expressions are written with. -/
def expressionTerms : List String :=
  Rdf.rdf.terms ++ Rdf.owl.terms ++ Rdf.xsd.terms

section Reading

variable (hw : w.KeepsApart expressionTerms)
include hw

theorem propertyByIri?_propertyIri {p : PropertyId} (hp : w.Has (.property p)) :
    w.propertyByIri? (w.propertyIri p) = some p := by
  have hfound := hw.entityByIri?_iri hp
  rw [Reference.iri] at hfound
  rw [propertyByIri?, hfound]
  rfl

theorem individualByIri?_individualIri {i : IndividualId} (hi : w.Has (.individual i)) :
    w.individualByIri? (w.individualIri i) = some i := by
  have hfound := hw.entityByIri?_iri hi
  rw [Reference.iri] at hfound
  rw [individualByIri?, hfound]
  rfl

theorem namedExpression?_classIri {c : ClassId} (hc : w.Has (.class c)) :
    w.namedExpression? (w.classIri c) = some (.named c) := by
  have hfound := hw.entityByIri?_iri hc
  have hterm := hw.iri_notMem hc
  rw [Reference.iri] at hfound hterm
  have hthing : w.classIri c ≠ Rdf.owl.thing := by
    intro heq
    rw [heq] at hterm
    exact hterm (by decide)
  have hnothing : w.classIri c ≠ Rdf.owl.nothing := by
    intro heq
    rw [heq] at hterm
    exact hterm (by decide)
  rw [namedExpression?, if_neg hthing, if_neg hnothing, hfound]
  rfl

theorem readRole_of_encodesRole {node : Rdf.Term} {p : PropertyExpression}
    (h : w.EncodesRole g node p) (hp : w.Has (.property p.property)) :
    w.readRole g node = some p := by
  cases p with
  | named p =>
    cases h
    simp [readRole, Rdf.Term.label?, Rdf.Term.iri, Rdf.Term.iri?,
      propertyByIri?_propertyIri hw (p := p) hp]
  | inverse p =>
    obtain ⟨label, rfl, hnode⟩ := h
    have hbase : g.object? label Rdf.owl.inverseOf = some (.iri (w.propertyIri p)) :=
      hnode.object? (List.nodup_singleton _) _
    simp [readRole, Rdf.Term.label?, Rdf.Term.blank, hbase, Rdf.Term.iri, Rdf.Term.iri?,
      propertyByIri?_propertyIri hw (p := p) hp]

/-- No expression is taken for another filler. -/
theorem readPlainFiller_of_encodes {node : Rdf.Term} {e : ClassExpression}
    (h : w.Encodes g node e) (he : ∀ r ∈ e.references, w.Has r) :
    w.readPlainFiller node = none := by
  have hterm : ∀ {term}, term ∈ expressionTerms → term ∉ Rdf.xsd.terms →
      w.readPlainFiller (.iri term) = none := by
    intro term hmem hdatatype
    simp [readPlainFiller, Rdf.Term.iri, individualByIri?, hw.entityByIri?_eq_none hmem,
      ofIri?_eq_none hdatatype]
  cases e with
  | thing =>
    cases h
    exact hterm (by decide) (by decide)
  | nothing =>
    cases h
    exact hterm (by decide) (by decide)
  | named c =>
    cases h
    have hc := he _ (List.mem_singleton_self _)
    have hfound := hw.entityByIri?_iri hc
    have hdatatype : w.classIri c ∉ Rdf.xsd.terms := fun hmem =>
      hw.iri_notMem hc (List.mem_append_right _ hmem)
    rw [Reference.iri] at hfound
    simp [readPlainFiller, Rdf.Term.iri, individualByIri?, hfound, Reference.entity,
      ofIri?_eq_none hdatatype]
  | and parts | or parts =>
    obtain ⟨label, list, items, rfl, -⟩ := h
    rfl
  | not inner =>
    obtain ⟨label, item, rfl, -⟩ := h
    rfl
  | oneOf members =>
    obtain ⟨label, list, rfl, -⟩ := h
    rfl
  | restriction property quantifier filler =>
    obtain ⟨label, role, item, rfl, -⟩ := h
    rfl

theorem readPlainFiller_iri_of_individual {i : IndividualId} (hi : w.Has (.individual i)) :
    w.readPlainFiller (.iri (w.individualIri i)) = some (.individual i) := by
  simp [readPlainFiller, Rdf.Term.iri, individualByIri?_individualIri hw hi]

theorem readPlainFiller_iri_of_datatype (d : Datatype) :
    w.readPlainFiller (.iri d.iri) = some (.datatype d) := by
  have hnone : w.entityByIri? d.iri = none :=
    hw.entityByIri?_eq_none (by cases d <;> decide)
  have hread : Datatype.ofIri? d.iri = some d := by cases d <;> rfl
  simp [readPlainFiller, Rdf.Term.iri, individualByIri?, hnone, hread]

/-- A filler that is no expression is read back from its node. -/
theorem readPlainFiller_of_encodesFiller {node : Rdf.Term} {filler : Filler}
    (h : w.EncodesFiller g node filler) (hplain : ∀ e, filler ≠ .expression e)
    (he : ∀ r ∈ filler.references, w.Has r) (hl : ∀ l ∈ filler.literals, l.datatype ≠ .float) :
    w.readPlainFiller node = some filler := by
  cases filler with
  | expression e => exact absurd rfl (hplain e)
  | individual i =>
    cases h
    exact readPlainFiller_iri_of_individual hw (he _ (List.mem_singleton_self _))
  | literal l =>
    cases h
    rw [readPlainFiller, Literal.ofRdf?_toRdf (hl _ (List.mem_singleton_self _)), Option.map_some]
  | datatype d =>
    cases h
    exact readPlainFiller_iri_of_datatype hw d

/-- The members of an enumeration are read back. -/
theorem readMembers_map {members : List IndividualId} (h : ∀ i ∈ members, w.Has (.individual i)) :
    w.readMembers (members.map fun i => .iri (w.individualIri i)) = some members := by
  induction members with
  | nil => rfl
  | cons i rest ih =>
    obtain ⟨hi, hrest⟩ := List.forall_mem_cons.mp h
    have hrest := ih hrest
    rw [readMembers] at hrest ⊢
    rw [List.map_cons, List.mapM_cons, hrest]
    simp [Rdf.Term.iri, Rdf.Term.iri?, individualByIri?_individualIri hw hi]

end Reading

/-- The quantifier of a restriction and the node of its filler are those of its row. -/
theorem quantified?_eq {label : Rdf.BlankLabel} {kind role item : Rdf.Term}
    {quantifier : Quantifier} (h : g.Describes label [(Rdf.rdf.type, kind),
      (Rdf.owl.onProperty, role), (quantifier.iri, item)]) :
    g.quantified? label = some (quantifier, item) := by
  cases quantifier with
  | some =>
    have hobject := h.object? (by decide :
      [Rdf.rdf.type, Rdf.owl.onProperty, Rdf.owl.someValuesFrom].Nodup)
    have hsome : g.object? label Rdf.owl.someValuesFrom = some item := hobject _
    simp [Rdf.Graph.quantified?, hsome]
  | value =>
    have hobject := h.object? (by decide :
      [Rdf.rdf.type, Rdf.owl.onProperty, Rdf.owl.hasValue].Nodup)
    have hnone : g.object? label Rdf.owl.someValuesFrom = none := hobject _
    have hvalue : g.object? label Rdf.owl.hasValue = some item := hobject _
    simp [Rdf.Graph.quantified?, hnone, hvalue]

/-- An expression is about entities of the ontology and mentions no fractions. -/
structure CanRead (w : World) (e : ClassExpression) : Prop where
  references : ∀ r ∈ e.references, w.Has r
  literals : ∀ l ∈ e.literals, l.datatype ≠ .float

instance (w : World) (e : ClassExpression) : Decidable (w.CanRead e) :=
  decidable_of_iff ((∀ r ∈ e.references, w.Has r) ∧ ∀ l ∈ e.literals, l.datatype ≠ .float)
    ⟨fun ⟨hreferences, hliterals⟩ => ⟨hreferences, hliterals⟩, fun h => ⟨h.references, h.literals⟩⟩

/-! ### Nodes of expressions

An expression that is no restriction has two rows at its node.  The second one tells the kind. -/

theorem readWithin_of_intersection {limit : Nat} {label : Rdf.BlankLabel} {list : Rdf.Term}
    {items : List Rdf.Term} (hnode : g.Describes label [(Rdf.rdf.type, .iri Rdf.owl.owlClass),
      (Rdf.owl.intersectionOf, list)]) (hlist : g.IsList list items) :
    w.readWithin g (limit + 1) (.blank label) =
      (items.mapM (w.readWithin g limit)).map .and := by
  have hobject := hnode.object? (by decide : [Rdf.rdf.type, Rdf.owl.intersectionOf].Nodup)
  have hkind : g.object? label Rdf.rdf.type = some (.iri Rdf.owl.owlClass) := hobject _
  have hitems : g.object? label Rdf.owl.intersectionOf = some list := hobject _
  rw [readWithin]
  simp only [Rdf.Term.blank, Rdf.Term.label?]
  rw [hkind, if_neg (by decide), hitems]
  simp only [hlist.items?, Option.bind_eq_bind, Option.bind_some]
  exact Option.map_eq_bind.symm

theorem readWithin_of_union {limit : Nat} {label : Rdf.BlankLabel} {list : Rdf.Term}
    {items : List Rdf.Term} (hnode : g.Describes label [(Rdf.rdf.type, .iri Rdf.owl.owlClass),
      (Rdf.owl.unionOf, list)]) (hlist : g.IsList list items) :
    w.readWithin g (limit + 1) (.blank label) =
      (items.mapM (w.readWithin g limit)).map .or := by
  have hobject := hnode.object? (by decide : [Rdf.rdf.type, Rdf.owl.unionOf].Nodup)
  have hkind : g.object? label Rdf.rdf.type = some (.iri Rdf.owl.owlClass) := hobject _
  have hand : g.object? label Rdf.owl.intersectionOf = none := hobject _
  have hitems : g.object? label Rdf.owl.unionOf = some list := hobject _
  rw [readWithin]
  simp only [Rdf.Term.blank, Rdf.Term.label?]
  rw [hkind, if_neg (by decide), hand, hitems]
  simp only [hlist.items?, Option.bind_eq_bind, Option.bind_some]
  exact Option.map_eq_bind.symm

theorem readWithin_of_enumeration {limit : Nat} {label : Rdf.BlankLabel} {list : Rdf.Term}
    {items : List Rdf.Term} (hnode : g.Describes label [(Rdf.rdf.type, .iri Rdf.owl.owlClass),
      (Rdf.owl.oneOf, list)]) (hlist : g.IsList list items) :
    w.readWithin g (limit + 1) (.blank label) = (w.readMembers items).map .oneOf := by
  have hobject := hnode.object? (by decide : [Rdf.rdf.type, Rdf.owl.oneOf].Nodup)
  have hkind : g.object? label Rdf.rdf.type = some (.iri Rdf.owl.owlClass) := hobject _
  have hand : g.object? label Rdf.owl.intersectionOf = none := hobject _
  have hor : g.object? label Rdf.owl.unionOf = none := hobject _
  have hitems : g.object? label Rdf.owl.oneOf = some list := hobject _
  rw [readWithin]
  simp only [Rdf.Term.blank, Rdf.Term.label?]
  rw [hkind, if_neg (by decide), hand, hor, hitems]
  simp only [hlist.items?, Option.bind_eq_bind, Option.bind_some]
  exact Option.map_eq_bind.symm

theorem readWithin_of_complement {limit : Nat} {label : Rdf.BlankLabel} {item : Rdf.Term}
    (hnode : g.Describes label [(Rdf.rdf.type, .iri Rdf.owl.owlClass),
      (Rdf.owl.complementOf, item)]) :
    w.readWithin g (limit + 1) (.blank label) = (w.readWithin g limit item).map .not := by
  have hobject := hnode.object? (by decide : [Rdf.rdf.type, Rdf.owl.complementOf].Nodup)
  have hkind : g.object? label Rdf.rdf.type = some (.iri Rdf.owl.owlClass) := hobject _
  have hand : g.object? label Rdf.owl.intersectionOf = none := hobject _
  have hor : g.object? label Rdf.owl.unionOf = none := hobject _
  have hone : g.object? label Rdf.owl.oneOf = none := hobject _
  have hitem : g.object? label Rdf.owl.complementOf = some item := hobject _
  rw [readWithin]
  simp only [Rdf.Term.blank, Rdf.Term.label?]
  rw [hkind, if_neg (by decide), hand, hor, hone, hitem]
  simp only [Option.bind_eq_bind, Option.bind_some]
  exact Option.map_eq_bind.symm

/-- A restriction is read from the three rows of its node. -/
theorem readWithin_of_restriction {limit : Nat} {label : Rdf.BlankLabel} {role item : Rdf.Term}
    {property : PropertyExpression} {quantifier : Quantifier}
    (hnode : g.Describes label [(Rdf.rdf.type, .iri Rdf.owl.restriction),
      (Rdf.owl.onProperty, role), (quantifier.iri, item)])
    (hrole : w.readRole g role = some property) :
    w.readWithin g (limit + 1) (.blank label) = match w.readPlainFiller item with
      | some filler => some (.restriction property quantifier filler)
      | none => (w.readWithin g limit item).map fun e =>
        .restriction property quantifier (.expression e) := by
  have hobject := hnode.object? (by
    cases quantifier
    · exact (by decide : [Rdf.rdf.type, Rdf.owl.onProperty, Rdf.owl.someValuesFrom].Nodup)
    · exact (by decide : [Rdf.rdf.type, Rdf.owl.onProperty, Rdf.owl.hasValue].Nodup))
  have hkind : g.object? label Rdf.rdf.type = some (.iri Rdf.owl.restriction) := hobject _
  have hproperty : g.object? label Rdf.owl.onProperty = some role := hobject _
  rw [readWithin]
  simp only [Rdf.Term.blank, Rdf.Term.label?]
  rw [hkind, if_pos rfl, hproperty]
  simp only [Option.bind_eq_bind, Option.bind_some, hrole, quantified?_eq hnode]
  cases w.readPlainFiller item with
  | some filler => rfl
  | none => cases w.readWithin g limit item <;> rfl

/-! ### Reading back -/

mutual

/-- What a graph holds at a node is read back from there within each limit above its height. -/
theorem readWithin_of_encodes (hw : w.KeepsApart expressionTerms) :
    ∀ {e : ClassExpression} {node : Rdf.Term} {limit : Nat}, w.Encodes g node e →
      (∀ r ∈ e.references, w.Has r) → (∀ l ∈ e.literals, l.datatype ≠ .float) →
      e.height < limit → w.readWithin g limit node = some e
  | .thing, node, limit + 1, h, _, _, _ => by
    cases h
    rw [readWithin]
    rfl
  | .nothing, node, limit + 1, h, _, _, _ => by
    cases h
    rw [readWithin]
    rfl
  | .named c, node, limit + 1, h, he, _, _ => by
    cases h
    rw [readWithin]
    exact namedExpression?_classIri hw (he _ (List.mem_singleton_self _))
  | .and parts, node, limit + 1, h, he, hl, hlimit => by
    obtain ⟨label, list, items, rfl, hnode, hlist, hparts⟩ := h
    rw [readWithin_of_intersection hnode hlist,
      readPartsWithin_of_encodesParts hw hparts he hl (Nat.lt_of_succ_lt_succ hlimit)]
    rfl
  | .or parts, node, limit + 1, h, he, hl, hlimit => by
    obtain ⟨label, list, items, rfl, hnode, hlist, hparts⟩ := h
    rw [readWithin_of_union hnode hlist,
      readPartsWithin_of_encodesParts hw hparts he hl (Nat.lt_of_succ_lt_succ hlimit)]
    rfl
  | .not inner, node, limit + 1, h, he, hl, hlimit => by
    obtain ⟨label, item, rfl, hnode, hinner⟩ := h
    rw [readWithin_of_complement hnode,
      readWithin_of_encodes hw hinner he hl (Nat.lt_of_succ_lt_succ hlimit)]
    rfl
  | .oneOf members, node, limit + 1, h, he, _, _ => by
    obtain ⟨label, list, rfl, hnode, hlist⟩ := h
    have hmembers : ∀ i ∈ members, w.Has (.individual i) := fun i hi =>
      he (.individual i) (List.mem_map_of_mem hi)
    rw [readWithin_of_enumeration hnode hlist, readMembers_map hw hmembers]
    rfl
  | .restriction property quantifier filler, node, limit + 1, h, he, hl, hlimit => by
    obtain ⟨label, role, item, rfl, hnode, hrole, hfiller⟩ := h
    obtain ⟨hp, hf⟩ := List.forall_mem_cons.mp he
    rw [readWithin_of_restriction hnode (readRole_of_encodesRole hw hrole hp)]
    cases filler with
    | expression e =>
      rw [readPlainFiller_of_encodes hw hfiller hf,
        readWithin_of_encodes hw hfiller hf hl (Nat.lt_of_succ_lt_succ hlimit)]
      rfl
    | individual i | literal l | datatype d =>
      rw [readPlainFiller_of_encodesFiller hw hfiller nofun hf hl]
termination_by structural e => e

/-- The parts of an expression are read back. -/
theorem readPartsWithin_of_encodesParts (hw : w.KeepsApart expressionTerms) :
    ∀ {parts : List ClassExpression} {nodes : List Rdf.Term} {limit : Nat},
      w.EncodesParts g nodes parts →
      (∀ r ∈ ClassExpression.referencesOfParts parts, w.Has r) →
      (∀ l ∈ ClassExpression.literalsOfParts parts, l.datatype ≠ .float) →
      ClassExpression.heightOfParts parts < limit →
      nodes.mapM (w.readWithin g limit) = some parts
  | [], nodes, limit, h, _, _, _ => by
    cases h
    rfl
  | part :: rest, nodes, limit, h, he, hl, hlimit => by
    obtain ⟨node, others, rfl, hpart, hrest⟩ := h
    obtain ⟨hep, her⟩ := List.forall_mem_append.mp he
    obtain ⟨hlp, hlr⟩ := List.forall_mem_append.mp hl
    obtain ⟨hpartLimit, hrestLimit⟩ := max_lt_iff.mp hlimit
    rw [List.mapM_cons, readWithin_of_encodes hw hpart hep hlp hpartLimit,
      readPartsWithin_of_encodesParts hw hrest her hlr hrestLimit]
    rfl
termination_by structural parts => parts

end

/-- A graph describes the blank node at which it holds an expression. -/
theorem Encodes.exists_subject {label : Rdf.BlankLabel} {e : ClassExpression}
    (h : w.Encodes g (.blank label) e) : ∃ t ∈ g.triples, t.subject = .blank label := by
  have hdescribed : ∀ {label' row rows}, Rdf.Term.blank label = .blank label' →
      g.Describes label' (row :: rows) → ∃ t ∈ g.triples, t.subject = .blank label := by
    intro label' row rows heq hnode
    cases heq
    exact ⟨_, (hnode row.1 row.2).mpr List.mem_cons_self, rfl⟩
  cases e with
  | thing | nothing | named c => cases h
  | and parts | or parts =>
    obtain ⟨label', list, items, heq, hnode, -⟩ := h
    exact hdescribed heq hnode
  | not inner =>
    obtain ⟨label', item, heq, hnode, -⟩ := h
    exact hdescribed heq hnode
  | oneOf members =>
    obtain ⟨label', list, heq, hnode, -⟩ := h
    exact hdescribed heq hnode
  | restriction property quantifier filler =>
    obtain ⟨label', role, item, heq, hnode, -⟩ := h
    exact hdescribed heq hnode

/-- A graph holds an expression of a height, which can be read, at a blank node. -/
def HoldsOfHeight (w : World) (g : Rdf.Graph) (label : Rdf.BlankLabel) (height : Nat) : Prop :=
  ∃ e, w.Encodes g (.blank label) e ∧ w.CanRead e ∧ e.height = height

/-- A blank node holds expressions of one height only. -/
theorem HoldsOfHeight.unique (hw : w.KeepsApart expressionTerms) {label : Rdf.BlankLabel}
    {height height' : Nat} (h : w.HoldsOfHeight g label height)
    (h' : w.HoldsOfHeight g label height') : height = height' := by
  obtain ⟨e, hencodes, he, rfl⟩ := h
  obtain ⟨e', hencodes', he', rfl⟩ := h'
  have hread := readWithin_of_encodes hw hencodes he.references he.literals
    (Nat.lt_succ_of_le (le_max_left e.height e'.height))
  rw [readWithin_of_encodes hw hencodes' he'.references he'.literals
    (Nat.lt_succ_of_le (le_max_right e.height e'.height))] at hread
  rw [Option.some.inj hread]

mutual

/-- A graph that holds an expression holds expressions of every height below at blank nodes. -/
theorem exists_holdsOfHeight : ∀ {e : ClassExpression} {node : Rdf.Term}, w.Encodes g node e →
    w.CanRead e → ∀ k < e.height, ∃ label, w.HoldsOfHeight g label (k + 1)
  | .and parts, node, h, he, k, hk | .or parts, node, h, he, k, hk => by
    obtain ⟨label, list, items, rfl, hnode, hlist, hparts⟩ := id h
    -- the expression itself has the last height, and its parts those before
    rcases Nat.lt_succ_iff_lt_or_eq.mp hk with hk | rfl
    · exact exists_holdsOfHeight_of_parts hparts he.references he.literals k hk
    · exact ⟨label, _, h, he, rfl⟩
  | .not inner, node, h, he, k, hk => by
    obtain ⟨label, item, rfl, hnode, hinner⟩ := id h
    rcases Nat.lt_succ_iff_lt_or_eq.mp hk with hk | rfl
    · exact exists_holdsOfHeight hinner ⟨he.references, he.literals⟩ k hk
    · exact ⟨label, _, h, he, rfl⟩
  | .restriction property quantifier filler, node, h, he, k, hk => by
    obtain ⟨label, role, item, rfl, hnode, hrole, hfiller⟩ := id h
    rcases Nat.lt_succ_iff_lt_or_eq.mp hk with hk | rfl
    · exact exists_holdsOfHeight_of_filler hfiller (List.forall_mem_cons.mp he.references).2
        he.literals k hk
    · exact ⟨label, _, h, he, rfl⟩
termination_by structural e => e

theorem exists_holdsOfHeight_of_parts :
    ∀ {parts : List ClassExpression} {nodes : List Rdf.Term}, w.EncodesParts g nodes parts →
      (∀ r ∈ ClassExpression.referencesOfParts parts, w.Has r) →
      (∀ l ∈ ClassExpression.literalsOfParts parts, l.datatype ≠ .float) →
      ∀ k < ClassExpression.heightOfParts parts, ∃ label, w.HoldsOfHeight g label (k + 1)
  | part :: rest, nodes, h, he, hl, k, hk => by
    obtain ⟨node, others, rfl, hpart, hrest⟩ := h
    obtain ⟨hep, her⟩ := List.forall_mem_append.mp he
    obtain ⟨hlp, hlr⟩ := List.forall_mem_append.mp hl
    rcases lt_max_iff.mp hk with hk | hk
    · exact exists_holdsOfHeight hpart ⟨hep, hlp⟩ k hk
    · exact exists_holdsOfHeight_of_parts hrest her hlr k hk
termination_by structural parts => parts

theorem exists_holdsOfHeight_of_filler : ∀ {filler : Filler} {node : Rdf.Term},
    w.EncodesFiller g node filler → (∀ r ∈ filler.references, w.Has r) →
    (∀ l ∈ filler.literals, l.datatype ≠ .float) →
    ∀ k < filler.height, ∃ label, w.HoldsOfHeight g label (k + 1)
  | .expression _, _, h, he, hl, k, hk => exists_holdsOfHeight h ⟨he, hl⟩ k hk
termination_by structural filler => filler

end

/-- No expression is nested deeper than its graph has triples. -/
theorem Encodes.height_le (hw : w.KeepsApart expressionTerms) {e : ClassExpression}
    {node : Rdf.Term} (h : w.Encodes g node e) (he : w.CanRead e) :
    e.height ≤ g.triples.length := by
  refine Rdf.Graph.le_length_of_ranks (fun label k => w.HoldsOfHeight g label (k + 1))
    (fun k hk => ?_) fun label k k' hk hk' => ?_
  · obtain ⟨label, hlabel⟩ := exists_holdsOfHeight h he k hk
    obtain ⟨inner, hinner, -⟩ := id hlabel
    exact ⟨label, hlabel, hinner.exists_subject⟩
  · exact Nat.succ_injective (hk.unique hw hk')

/-- **What a graph holds at a node is read back from there.** -/
theorem readExpression_of_encodes (hw : w.KeepsApart expressionTerms) {e : ClassExpression}
    {node : Rdf.Term} (h : w.Encodes g node e) (he : w.CanRead e) :
    w.readExpression g node = some e :=
  readWithin_of_encodes hw h he.references he.literals (Nat.lt_succ_of_le (h.height_le hw he))

end World

/-! ### Labels of blank nodes -/

namespace Rdf

/-- A resource with another label, if it is a blank node. -/
def Resource.relabel (f : BlankLabel → BlankLabel) : Resource → Resource
  | .iri text => .iri text
  | .blank label => .blank (f label)

/-- A term with another label, if it is a blank node. -/
def Term.relabel (f : BlankLabel → BlankLabel) : Term → Term
  | .resource r => .resource (r.relabel f)
  | .literal l => .literal l

/-- A triple with other labels for its blank nodes. -/
def Triple.relabel (f : BlankLabel → BlankLabel) (t : Triple) : Triple :=
  ⟨t.subject.relabel f, t.predicate, t.object.relabel f⟩

namespace Graph

/-- A graph is another one with other labels for its blank nodes, different ones for different
nodes. -/
structure IsRelabelled (f : BlankLabel → BlankLabel) (g g' : Graph) : Prop where
  injective : Function.Injective f
  mem_iff : ∀ t, t ∈ g'.triples ↔ ∃ u ∈ g.triples, u.relabel f = t

variable {f : BlankLabel → BlankLabel} {g g' : Graph}

theorem Describes.relabel (hg : g.IsRelabelled f g') {label : BlankLabel}
    {rows : List (String × Term)} (h : g.Describes label rows) :
    g'.Describes (f label) (rows.map fun row => (row.1, row.2.relabel f)) := by
  intro predicate object
  rw [hg.mem_iff, List.mem_map]
  constructor
  · rintro ⟨⟨subject, p, o⟩, hu, heq⟩
    obtain ⟨hsubject, rfl, rfl⟩ := Triple.mk.inj heq
    cases subject with
    | iri text => cases hsubject
    | blank other =>
      obtain rfl := hg.injective (Resource.blank.inj hsubject)
      exact ⟨_, (h p o).mp hu, rfl⟩
  · rintro ⟨⟨p, o⟩, hrow, heq⟩
    obtain ⟨rfl, rfl⟩ := Prod.mk.inj heq
    exact ⟨_, (h p o).mpr hrow, rfl⟩

theorem IsList.relabel (hg : g.IsRelabelled f g') : ∀ {items : List Term} {node : Term},
    g.IsList node items → g'.IsList (node.relabel f) (items.map (Term.relabel f))
  | [], node, h => by
    cases h
    rfl
  | item :: items, node, h => by
    obtain ⟨label, next, rfl, hcell, hnext⟩ := h
    exact ⟨f label, next.relabel f, rfl, hcell.relabel hg, hnext.relabel hg⟩

end Graph

end Rdf

namespace World

variable {w : World} {f : Rdf.BlankLabel → Rdf.BlankLabel} {g g' : Rdf.Graph}

theorem EncodesRole.relabel (hg : g.IsRelabelled f g') {node : Rdf.Term} {p : PropertyExpression}
    (h : w.EncodesRole g node p) : w.EncodesRole g' (node.relabel f) p := by
  cases p with
  | named p =>
    cases h
    rfl
  | inverse p =>
    obtain ⟨label, rfl, hnode⟩ := h
    exact ⟨f label, rfl, hnode.relabel hg⟩

mutual

/-- **Labels of blank nodes do not matter** for what a graph holds. -/
theorem Encodes.relabel (hg : g.IsRelabelled f g') : ∀ {e : ClassExpression} {node : Rdf.Term},
    w.Encodes g node e → w.Encodes g' (node.relabel f) e
  | .thing, node, h | .nothing, node, h | .named _, node, h => by
    cases h
    rfl
  | .and parts, node, h | .or parts, node, h => by
    obtain ⟨label, list, items, rfl, hnode, hlist, hparts⟩ := h
    exact ⟨f label, list.relabel f, _, rfl, hnode.relabel hg, hlist.relabel hg,
      EncodesParts.relabel hg hparts⟩
  | .not inner, node, h => by
    obtain ⟨label, item, rfl, hnode, hinner⟩ := h
    exact ⟨f label, item.relabel f, rfl, hnode.relabel hg, Encodes.relabel hg hinner⟩
  | .oneOf members, node, h => by
    obtain ⟨label, list, rfl, hnode, hlist⟩ := h
    refine ⟨f label, list.relabel f, rfl, hnode.relabel hg, ?_⟩
    have hmembers := hlist.relabel hg
    rwa [List.map_map] at hmembers
  | .restriction property quantifier filler, node, h => by
    obtain ⟨label, role, item, rfl, hnode, hrole, hfiller⟩ := h
    exact ⟨f label, role.relabel f, item.relabel f, rfl, hnode.relabel hg, hrole.relabel hg,
      EncodesFiller.relabel hg hfiller⟩
termination_by structural e => e

theorem EncodesParts.relabel (hg : g.IsRelabelled f g') :
    ∀ {parts : List ClassExpression} {nodes : List Rdf.Term}, w.EncodesParts g nodes parts →
      w.EncodesParts g' (nodes.map (Rdf.Term.relabel f)) parts
  | [], nodes, h => by
    cases h
    rfl
  | part :: rest, nodes, h => by
    obtain ⟨node, others, rfl, hpart, hrest⟩ := h
    exact ⟨node.relabel f, _, rfl, Encodes.relabel hg hpart, EncodesParts.relabel hg hrest⟩
termination_by structural parts => parts

theorem EncodesFiller.relabel (hg : g.IsRelabelled f g') : ∀ {filler : Filler} {node : Rdf.Term},
    w.EncodesFiller g node filler → w.EncodesFiller g' (node.relabel f) filler
  | .expression _, _, h => Encodes.relabel hg h
  | .individual _, _, h | .literal _, _, h | .datatype _, _, h => by
    cases h
    rfl
termination_by structural filler => filler

end

/-! ### Expressions that are written -/

/-- An expression whose triples a graph holds apart is read back. -/
theorem readExpression_of_holdsApart (hw : w.KeepsApart expressionTerms) {e : ClassExpression}
    (he : w.CanRead e) {path : List Nat} (h : g.HoldsApart path (w.expressionTriples path e)) :
    w.readExpression g (w.expressionNode path e) = some e :=
  readExpression_of_encodes hw (encodes_of_holdsApart h) he

/-- Expressions that are written for places of which none is inside another are held apart, in a
graph that says nothing else of these places. -/
theorem holdsApart_ofList {written : List (List Nat × ClassExpression)} {others : List Rdf.Triple}
    (hplaces : ∀ row ∈ written, ∀ row' ∈ written, row.1 <:+ row'.1 → row = row')
    (hothers : ∀ t ∈ others, ∀ row ∈ written, ¬t.IsBelow row.1)
    {row : List Nat × ClassExpression} (hrow : row ∈ written) :
    (Rdf.Graph.ofList (written.flatMap (fun row => w.expressionTriples row.1 row.2)
      ++ others)).HoldsApart row.1 (w.expressionTriples row.1 row.2) where
  holds t ht := Rdf.Graph.mem_ofList.mpr
    (List.mem_append_left _ (List.mem_flatMap.mpr ⟨row, hrow, ht⟩))
  apart t ht hbelow := by
    rcases List.mem_append.mp (Rdf.Graph.mem_ofList.mp ht) with ht | ht
    · obtain ⟨row', hrow', ht⟩ := List.mem_flatMap.mp ht
      obtain ⟨place, hsubject, hplace⟩ := hbelow
      obtain ⟨place', hsubject', hplace'⟩ := isBelow_of_mem_expressionTriples ht
      rw [hsubject] at hsubject'
      obtain rfl : place = place' := by simpa using hsubject'
      -- of two places that a node is made for, one is inside the other
      have hsame : row = row' := by
        rcases List.suffix_or_suffix_of_suffix hplace hplace' with hin | hin
        · exact hplaces row hrow row' hrow' hin
        · exact (hplaces row' hrow' row hrow hin).symm
      rwa [hsame]
    · exact absurd hbelow (hothers t ht row hrow)

/-- **Expressions are read back from the graphs that they are written to**: from a graph to which
any expressions are written for different places, whatever else is in it, and from the graph of an
ontology.  So different expressions are never written alike, not even with other labels for blank
nodes. -/
theorem readExpression_written (hw : w.KeepsApart expressionTerms) :
    (∀ (written : List (List Nat × ClassExpression)) (others : List Rdf.Triple),
      (∀ row ∈ written, ∀ row' ∈ written, row.1 <:+ row'.1 → row = row') →
      (∀ t ∈ others, ∀ row ∈ written, ¬t.IsBelow row.1) →
      ∀ row ∈ written, w.CanRead row.2 →
        w.readExpression (.ofList (written.flatMap (fun row => w.expressionTriples row.1 row.2)
          ++ others)) (w.expressionNode row.1 row.2) = some row.2) ∧
    (∀ inferred path e, w.expressionAt inferred path = some e → w.CanRead e →
      w.readExpression (w.toGraph inferred) (w.expressionNode path e) = some e) ∧
    ∀ e e' path path' f, w.CanRead e → w.CanRead e' → Function.Injective f →
      w.expressionNode path' e' = (w.expressionNode path e).relabel f →
      (∀ t, t ∈ w.expressionTriples path' e' ↔
        ∃ u ∈ w.expressionTriples path e, u.relabel f = t) →
      e = e' := by
  refine ⟨fun written others hplaces hothers row hrow he => ?_, fun inferred path e h he => ?_,
    fun e e' path path' f he he' hf hnode htriples => ?_⟩
  · exact readExpression_of_holdsApart hw he (holdsApart_ofList hplaces hothers hrow)
  · exact readExpression_of_holdsApart hw he (holdsApart_toGraph h)
  · -- the second graph holds both expressions at one node
    have hself : ∀ path e, Rdf.Graph.HoldsApart ⟨w.expressionTriples path e⟩ path
        (w.expressionTriples path e) := fun _ _ => ⟨fun _ ht => ht, fun _ ht _ => ht⟩
    have hrelabelled : Rdf.Graph.IsRelabelled f ⟨w.expressionTriples path e⟩
        ⟨w.expressionTriples path' e'⟩ := ⟨hf, htriples⟩
    have hencodes := (encodes_of_holdsApart (hself path e)).relabel hrelabelled
    have hread := readExpression_of_encodes hw hencodes he
    rw [← hnode, readExpression_of_holdsApart hw he' (hself path' e')] at hread
    exact (Option.some.inj hread).symm

/-- A kennel with a dog. -/
def kennel : World where
  iri := "https://example.org/kennel#"
  classes := #[{ name := "Dog", iri := "https://example.org/kennel#Dog" }]
  properties := #[{ name := "feeds", iri := "https://example.org/kennel#feeds", kind := .object }]
  individuals := #[
    { name := "rex", iri := "https://example.org/kennel#rex", isA := [.named ⟨0⟩] }]

/-- Dogs that are fed by Rex or by anyone. -/
def fedDogs : ClassExpression :=
  .and [.named ⟨0⟩, .restriction (.inverse ⟨0⟩) .some
    (.expression (.or [.oneOf [⟨0⟩], .not .nothing]))]

/-- The dogs that are fed are told from those that are not, in one graph. -/
theorem readExpression_written_kennel :
    kennel.KeepsApart expressionTerms ∧ kennel.CanRead fedDogs ∧ kennel.CanRead (.not fedDogs) ∧
    (let graph : Rdf.Graph := .ofList (kennel.expressionTriples [0] fedDogs
        ++ (kennel.expressionTriples [1] (.not fedDogs) ++ []) ++ []);
      kennel.readExpression graph (.blank (.made [0])) = some fedDogs ∧
      kennel.readExpression graph (.blank (.made [1])) = some (.not fedDogs)) := by
  have hkennel : kennel.KeepsApart expressionTerms := by decide
  have hfed : kennel.CanRead fedDogs := by decide
  have hnot : kennel.CanRead (.not fedDogs) := by decide
  have hread := (readExpression_written hkennel).1 [([0], fedDogs), ([1], .not fedDogs)] []
    (by decide) (by simp)
  exact ⟨hkennel, hfed, hnot, hread ([0], fedDogs) (by decide) hfed,
    hread ([1], .not fedDogs) (by decide) hnot⟩

end World

end Ontology
