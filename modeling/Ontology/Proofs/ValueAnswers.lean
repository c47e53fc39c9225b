import Ontology.Proofs.Answers
import Ontology.Proofs.Export
import Ontology.Proofs.Grounded
import Ontology.Workspace

/-!
# Queries for the values of an individual

The values of an individual can be looked up in the ontology and asked for in its graph.  Both ways
give the same: an individual or a named class is answered as such, the classes of all and of no
things by their IRIs, a literal as it is written, and any other expression by its node.

## Main definitions

* `World.Shows` — an answer shows a value.
* `World.IsWrittenAs` — a value has a node in the graph.

## Main results

* `SelectQuery.answer_of_pattern` — the rows of a query with one pattern.
* `World.exists_value_of_mem_toGraph`, `World.exists_mem_toGraph_of_value` — the values of a
  property in the graph.
* `Workspace.ask_values` — **queries see exactly the values of an individual.**
-/

namespace Ontology

/-! ### Queries with one pattern -/

namespace SelectQuery

variable {q : SelectQuery} {p : TriplePattern} {name : String}

/-- A query with one pattern has a row for each triple that matches it. -/
theorem answer_of_pattern (hpatterns : q.patterns = [p]) (hprojected : q.projected = [name])
    (hname : .variable name ∈ p.terms) (g : Rdf.Graph) :
    ∃ rows, q.answer g = .ok ⟨[name], rows⟩ ∧
      ∀ row, row ∈ rows ↔ ∃ t ∈ g.triples, ∃ s, p.unify [] t = some s ∧ row = [s.lookup name] := by
  have hmentioned : ∀ x ∈ q.projected, x ∈ q.mentioned := by
    intro x hx
    rw [hprojected, List.mem_singleton] at hx
    exact mem_mentioned.mpr ⟨p, by simp [hpatterns], hx ▸ hname⟩
  have hplan : q.plan = [p] := by
    rw [plan, hpatterns]
    rfl
  have hrows : ∀ row, row ∈ q.allRows g ↔
      ∃ t ∈ g.triples, ∃ s, p.unify [] t = some s ∧ row = [s.lookup name] := by
    intro row
    simp only [allRows, hplan, hprojected, solutions, TriplePattern.solutions, List.foldl_cons,
      List.foldl_nil, List.flatMap_cons, List.flatMap_nil, List.append_nil, List.mem_map,
      List.mem_filterMap, List.map_cons, List.map_nil]
    constructor
    · rintro ⟨s, ⟨t, ht, hs⟩, rfl⟩
      exact ⟨t, ht, s, hs, rfl⟩
    · rintro ⟨t, ht, s, hs, rfl⟩
      exact ⟨s, ⟨t, ht, hs⟩, rfl⟩
  refine ⟨_, (answer_eq_ok hmentioned g).trans (by rw [hprojected]), fun row => ?_⟩
  split
  · rw [List.mem_eraseDups, hrows]
  · exact hrows row

/-- The rows of a query for the objects of a predicate. -/
theorem answer_of_objects {subject predicate : String}
    (hpatterns : q.patterns = [⟨.iri subject, .iri predicate, .variable name⟩])
    (hprojected : q.projected = [name]) (g : Rdf.Graph) :
    ∃ rows, q.answer g = .ok ⟨[name], rows⟩ ∧
      ∀ row, row ∈ rows ↔ ∃ o, ⟨.iri subject, predicate, o⟩ ∈ g.triples ∧ row = [some o] := by
  have hunify : ∀ t : Rdf.Triple,
      TriplePattern.unify [] ⟨.iri subject, .iri predicate, .variable name⟩ t =
        if t.subject = .iri subject ∧ t.predicate = predicate then some [(name, t.object)]
        else none := by
    intro t
    by_cases hsubject : t.subject = .iri subject <;>
      by_cases hpredicate : t.predicate = predicate <;>
      simp [TriplePattern.unify, PatternTerm.unify, Rdf.Term.iri, hsubject, hpredicate]
  obtain ⟨rows, hanswer, hrows⟩ :=
    answer_of_pattern hpatterns hprojected (by simp [TriplePattern.terms]) g
  refine ⟨rows, hanswer, fun row => ?_⟩
  simp only [hrows, hunify, Option.ite_none_right_eq_some, Option.some.injEq]
  constructor
  · rintro ⟨⟨u, p, o⟩, ht, _, ⟨⟨rfl, rfl⟩, rfl⟩, rfl⟩
    exact ⟨o, ht, by simp⟩
  · rintro ⟨o, ht, rfl⟩
    exact ⟨_, ht, _, ⟨⟨rfl, rfl⟩, rfl⟩, by simp⟩

/-- The rows of a query for the subjects of a predicate with some object. -/
theorem answer_of_subjects {predicate object : String}
    (hpatterns : q.patterns = [⟨.variable name, .iri predicate, .iri object⟩])
    (hprojected : q.projected = [name]) (g : Rdf.Graph) :
    ∃ rows, q.answer g = .ok ⟨[name], rows⟩ ∧
      ∀ row, row ∈ rows ↔ ∃ u, ⟨u, predicate, .iri object⟩ ∈ g.triples ∧
        row = [some (.resource u)] := by
  have hunify : ∀ t : Rdf.Triple,
      TriplePattern.unify [] ⟨.variable name, .iri predicate, .iri object⟩ t =
        if t.predicate = predicate ∧ t.object = .iri object then some [(name, .resource t.subject)]
        else none := by
    intro t
    by_cases hpredicate : t.predicate = predicate <;> by_cases hobject : t.object = .iri object <;>
      simp_all [TriplePattern.unify, PatternTerm.unify, Rdf.Term.iri]
  obtain ⟨rows, hanswer, hrows⟩ :=
    answer_of_pattern hpatterns hprojected (by simp [TriplePattern.terms]) g
  refine ⟨rows, hanswer, fun row => ?_⟩
  simp only [hrows, hunify, Option.ite_none_right_eq_some, Option.some.injEq]
  constructor
  · rintro ⟨⟨u, p, o⟩, ht, _, ⟨⟨rfl, rfl⟩, rfl⟩, rfl⟩
    exact ⟨u, ht, by simp⟩
  · rintro ⟨u, ht, rfl⟩
    exact ⟨_, ht, _, ⟨⟨rfl, rfl⟩, rfl⟩, by simp⟩

end SelectQuery

namespace World

variable {w : World} {s : IndividualId} {p : PropertyId} {v : Value} {node : Rdf.Term}

/-! ### Values and answers -/

/-- The answer for a value that is named by an IRI or is a literal. -/
def plainAnswer? : Value → Option Answer
  | .individual i => some (.entity (.individual i))
  | .literal l => some (.literal l.toRdf)
  | .expression .thing => some (.iri Rdf.owl.thing)
  | .expression .nothing => some (.iri Rdf.owl.nothing)
  | .expression (.named c) => some (.entity (.class c))
  | .expression _ => none

/-- An answer shows a value: it is the answer for the value, or a node at which the graph holds the
expression that the value is. -/
def Shows (w : World) (v : Value) (a : Answer) : Prop :=
  match plainAnswer? v with
  | some plain => a = plain
  | none => ∃ label e, v = .expression e ∧ a = .blank label ∧
      w.Encodes (w.toGraph true) (.blank label) e

/-- A value has a node in the graph; an expression has one at a place that it is written for. -/
def IsWrittenAs (w : World) (v : Value) (node : Rdf.Term) : Prop :=
  ∃ path, node = w.valueNode path v ∧
    ∀ e, v = .expression e → w.expressionAt true path = some e

/-- What the node of a value stands for shows the value. -/
theorem shows_of_isWrittenAs (hw : w.KeepsApart terms) (hv : ∀ r ∈ v.references, w.Has r)
    (h : w.IsWrittenAs v node) : w.Shows v (w.answerOf node) := by
  obtain ⟨path, rfl, hplace⟩ := h
  have hentity : ∀ r ∈ v.references, w.answerOf (.iri (r.iri w)) = .entity r.entity := by
    intro r hr
    simp [answerOf, Rdf.Term.iri, hw.entityByIri?_iri (hv r hr)]
  have hterm : ∀ {term}, term ∈ terms → w.answerOf (.iri term) = .iri term := by
    intro term hmem
    simp [answerOf, Rdf.Term.iri, hw.entityByIri?_eq_none hmem]
  cases v with
  | individual i => exact hentity (.individual i) (List.mem_singleton_self _)
  | literal l => rfl
  | expression e =>
    have hencodes := encodes_toGraph (hplace e rfl)
    cases e with
    | thing => exact hterm (by decide)
    | nothing => exact hterm (by decide)
    | named c => exact hentity (.class c) (List.mem_singleton_self _)
    | and _ | or _ | not _ | oneOf _ | restriction _ _ _ => exact ⟨_, _, rfl, rfl, hencodes⟩

/-! ### Values in the graph -/

/-- A row of values is written with a node for each value. -/
theorem isWrittenAs_of_getElem? {n k : Nat} {a : Assertions} (hs : w.Has (.individual s))
    (hplace : k = 5 ∧ a = (w.getIndividual s).facts ∨
      k = 6 ∧ a = (w.getIndividual s).inferredFacts)
    (hv : a.toList[n]? = some (p, v)) :
    w.IsWrittenAs v (w.valueNode [n, s.index, k] v) := by
  refine ⟨[n, s.index, k], rfl, ?_⟩
  rintro e rfl
  obtain ⟨d, hd⟩ := has_individual_iff.mp hs
  rw [getIndividual_eq hd] at hplace
  rcases hplace with ⟨rfl, rfl⟩ | ⟨rfl, rfl⟩ <;> simp [expressionAt, hd, hv, Value.expression?]

/-- What the graph relates an individual to by a property is a value of the individual. -/
theorem exists_value_of_mem_toGraph (hw : w.KeepsApart terms)
    (hrefs : ∀ r ∈ w.references, w.Has r) (hs : w.Has (.individual s)) (hp : w.Has (.property p))
    (h : ⟨.iri (w.individualIri s), w.propertyIri p, node⟩ ∈ (w.toGraph true).triples) :
    ∃ v ∈ w.values s p, w.IsWrittenAs v node := by
  have hterm : ∀ {term}, term ∈ terms → w.propertyIri p ≠ term := by
    rintro term hmem rfl
    exact hw.iri_notMem hp hmem
  -- the other parts of the graph use terms of the vocabulary
  have hfact : ∀ {k a}, (k = 5 ∧ a = (w.getIndividual s).facts ∨
      k = 6 ∧ a = (w.getIndividual s).inferredFacts) →
      ⟨.iri (w.individualIri s), w.propertyIri p, node⟩ ∈
        w.factTriples [s.index, k] (w.individualIri s) a →
      ∃ v ∈ a.get p, w.IsWrittenAs v node := by
    intro k a hplace hmem
    obtain ⟨-, n, q, v, hv, hiri, rfl⟩ := mem_factTriples_iri.mp hmem
    have hget : v ∈ a.get q := Assertions.mem_toList.mp (List.mem_of_getElem? hv)
    have hq : w.Has (.property q) :=
      hrefs _ (references_of_assertions (hplace.imp And.right And.right) hget).1
    cases hw.iri_inj (r := .property p) hp hq hiri
    exact ⟨v, hget, isWrittenAs_of_getElem? hs hplace hv⟩
  rcases mem_entityTriples_of_mem_toGraph hw hs h with h | ⟨htype, -⟩ | hcomment | himports
  · rcases mem_individualTriples.mp h with heq | h | h | ⟨-, ⟨_, -, heq⟩ | h⟩
    · exact absurd (Rdf.Triple.mk.inj heq).2.1 (hterm (by decide))
    · exact absurd (mem_expressionAxioms_iri.mp h).2.1 (hterm (by decide))
    · obtain ⟨v, hv, hnode⟩ := hfact (.inl ⟨rfl, rfl⟩) h
      exact ⟨v, mem_values.mpr (.inl hv), hnode⟩
    · exact absurd (Rdf.Triple.mk.inj heq).2.1 (hterm (by decide))
    · obtain ⟨v, hv, hnode⟩ := hfact (.inr ⟨rfl, rfl⟩) h
      exact ⟨v, mem_values.mpr (.inr hv), hnode⟩
  · exact absurd htype (hterm (by decide))
  · exact absurd hcomment (hterm (by decide))
  · exact absurd himports (hterm (by decide))

/-- The graph relates an individual to each of its values. -/
theorem exists_mem_toGraph_of_value (hs : w.Has (.individual s)) (h : v ∈ w.values s p) :
    ∃ node, w.IsWrittenAs v node ∧
      ⟨.iri (w.individualIri s), w.propertyIri p, node⟩ ∈ (w.toGraph true).triples := by
  rcases mem_values.mp h with h | h
  · obtain ⟨n, hn⟩ := List.mem_iff_getElem?.mp (Assertions.mem_toList.mpr h)
    refine ⟨_, isWrittenAs_of_getElem? hs (.inl ⟨rfl, rfl⟩) hn, ?_⟩
    exact mem_toGraph_of_mem_entityTriples hs (mem_individualTriples.mpr
      (.inr (.inr (.inl (mem_factTriples_iri.mpr ⟨rfl, n, p, v, hn, rfl, rfl⟩)))))
  · obtain ⟨n, hn⟩ := List.mem_iff_getElem?.mp (Assertions.mem_toList.mpr h)
    refine ⟨_, isWrittenAs_of_getElem? hs (.inr ⟨rfl, rfl⟩) hn, ?_⟩
    exact mem_toGraph_of_mem_entityTriples hs (mem_individualTriples.mpr
      (.inr (.inr (.inr ⟨rfl, .inr (mem_factTriples_iri.mpr ⟨rfl, n, p, v, hn, rfl, rfl⟩)⟩))))

end World

/-! ### Answers -/

/-- **Queries see exactly the values of an individual**: if a text is read as a query for what an
individual is related to by a property, each answer shows a value, and each value is shown. -/
theorem Workspace.ask_values {w : Workspace} (hw : w.world.KeepsApart World.terms)
    (hrefs : ∀ r ∈ w.world.references, w.world.Has r) {s : IndividualId} {p : PropertyId}
    (hs : w.world.Has (.individual s)) (hp : w.world.Has (.property p)) {text name : String}
    {q : SelectQuery} (hq : SelectQuery.ofText w.world.querySpaces text = .ok q)
    (hpatterns : q.patterns =
      [⟨.iri (w.world.individualIri s), .iri (w.world.propertyIri p), .variable name⟩])
    (hprojected : q.projected = [name]) :
    ∃ answers, w.ask text = .ok answers ∧ answers.Nodup ∧
      (∀ v ∈ w.world.values s p, ∃ a ∈ answers, w.world.Shows v a) ∧
      ∀ a ∈ answers, ∃ v ∈ w.world.values s p, w.world.Shows v a := by
  obtain ⟨rows, hanswer, hrows⟩ :=
    SelectQuery.answer_of_objects hpatterns hprojected (w.world.toGraph true)
  have hask : w.ask text = .ok (w.world.answers ⟨[name], rows⟩) := by
    simp [ask, query, hq, World.select, hanswer, Except.mapError, bind, Except.bind, pure,
      Except.pure]
  have hmem : ∀ a, a ∈ w.world.answers ⟨[name], rows⟩ ↔ ∃ node,
      ⟨.iri (w.world.individualIri s), w.world.propertyIri p, node⟩ ∈
        (w.world.toGraph true).triples ∧ a = w.world.answerOf node := by
    intro a
    rw [World.answers, List.mem_eraseDups, List.mem_filterMap]
    constructor
    · rintro ⟨row, hrow, ha⟩
      obtain ⟨node, hnode, rfl⟩ := (hrows row).mp hrow
      exact ⟨node, hnode, (Option.some.inj ha).symm⟩
    · rintro ⟨node, hnode, rfl⟩
      exact ⟨[some node], (hrows _).mpr ⟨node, hnode, rfl⟩, rfl⟩
  have hvalue : ∀ v ∈ w.world.values s p, ∀ r ∈ v.references, w.world.Has r := by
    intro v hv r hr
    rcases World.mem_values.mp hv with hv | hv
    · exact hrefs r ((World.references_of_assertions (.inl rfl) hv).2 hr)
    · exact hrefs r ((World.references_of_assertions (.inr rfl) hv).2 hr)
  refine ⟨_, hask, nodup_eraseDups _, fun v hv => ?_, fun a ha => ?_⟩
  · obtain ⟨node, hnode, htriple⟩ := World.exists_mem_toGraph_of_value hs hv
    exact ⟨_, (hmem _).mpr ⟨node, htriple, rfl⟩,
      World.shows_of_isWrittenAs hw (hvalue v hv) hnode⟩
  · obtain ⟨node, htriple, rfl⟩ := (hmem a).mp ha
    obtain ⟨v, hv, hnode⟩ := World.exists_value_of_mem_toGraph hw hrefs hs hp htriple
    exact ⟨v, hv, World.shows_of_isWrittenAs hw (hvalue v hv) hnode⟩

/-! ### Feeding in a kennel -/

/-- A dog feeds another one, all dogs and all that are no dogs, and is found to feed itself. -/
def feeding : World where
  iri := "https://example.org/kennel#"
  classes := #[{ name := "Dog", iri := "https://example.org/kennel#Dog" }]
  properties := #[{ name := "feeds", iri := "https://example.org/kennel#feeds", kind := .object }]
  individuals := #[
    { name := "rex", iri := "https://example.org/kennel#rex", isA := [.named ⟨0⟩]
      facts := ((({} : Assertions).push ⟨0⟩ (.individual ⟨1⟩)).push ⟨0⟩
        (.expression (.named ⟨0⟩))).push ⟨0⟩ (.expression (.not (.named ⟨0⟩)))
      inferredFacts := ({} : Assertions).push ⟨0⟩ (.individual ⟨0⟩) },
    { name := "fido", iri := "https://example.org/kennel#fido", isA := [.named ⟨0⟩] }]

/-- What Rex feeds. -/
def fedByRex : SelectQuery where
  projection := .named ["x"]
  patterns := [⟨.iri "https://example.org/kennel#rex", .iri "https://example.org/kennel#feeds",
    .variable "x"⟩]

/-- A query in words sees what Rex feeds. -/
theorem Workspace.ask_values_feeding :
    feeding.KeepsApart World.terms ∧ (∀ r ∈ feeding.references, feeding.Has r) ∧
    SelectQuery.ofText feeding.querySpaces "SELECT ?x WHERE { :rex :feeds ?x }"
      = .ok fedByRex ∧
    ∃ answers, ask ⟨feeding, {}⟩ "SELECT ?x WHERE { :rex :feeds ?x }" = .ok answers ∧
      answers.Nodup ∧ (∀ v ∈ feeding.values ⟨0⟩ ⟨0⟩, ∃ a ∈ answers, feeding.Shows v a) ∧
      ∀ a ∈ answers, ∃ v ∈ feeding.values ⟨0⟩ ⟨0⟩, feeding.Shows v a := by
  have hkennel : feeding.KeepsApart World.terms := by decide
  have hrefs : ∀ r ∈ feeding.references, feeding.Has r := by decide
  have hread : SelectQuery.ofText feeding.querySpaces "SELECT ?x WHERE { :rex :feeds ?x }"
      = .ok fedByRex := by decide +kernel
  exact ⟨hkennel, hrefs, hread, ask_values (w := ⟨feeding, {}⟩) (s := ⟨0⟩) (p := ⟨0⟩) hkennel hrefs
    (by decide) (by decide) hread rfl rfl⟩

end Ontology
