import Ontology.Proofs.Denotation
import Ontology.Proofs.Identifiers

/-!
# What the graph of an ontology holds

The triples of a graph come from the parts of the ontology, each part with nodes of its own.  So the
graph holds every expression of the ontology as if it were alone, and what it says of an individual
by name is what the ontology says of the individual, but for a few terms of the vocabulary.

## Main definitions

* `World.terms` — the terms that the graphs of ontologies are written with, apart from datatypes.
* `World.entityTriples` — what is written for an entity.
* `World.expressionAt` — the expression that is written for a place.

## Main results

* `World.mem_toGraph` — the parts that the triples of a graph come from.
* `World.holdsApart_toGraph` — **the graph of an ontology holds each of its expressions apart.**
* `World.encodes_toGraph` — **it holds each expression at its node.**
* `World.mem_entityTriples_of_mem_toGraph` — what it says of an entity.
-/

namespace Ontology

open Rdf (Triple)

/-- A graph that is made of a list of triples has these and no others. -/
theorem Rdf.Graph.mem_ofList {ts : List Triple} {t : Triple} :
    t ∈ (ofList ts).triples ↔ t ∈ ts := by
  have hinsert : ∀ (g : Graph) (u : Triple), t ∈ (g.insert u).triples ↔ t = u ∨ t ∈ g.triples := by
    intro g u
    rw [insert]
    split
    · next hu => exact ⟨.inr, by rintro (rfl | h); exacts [hu, h]⟩
    · exact List.mem_cons
  have hfold : ∀ (ts : List Triple) (g : Graph),
      t ∈ (ts.foldl insert g).triples ↔ t ∈ ts ∨ t ∈ g.triples := by
    intro ts
    induction ts with
    | nil => simp
    | cons u rest ih =>
      intro g
      rw [List.foldl_cons, ih, hinsert, List.mem_cons]
      tauto
  rw [ofList, hfold]
  simp

/-- The expression that a value is. -/
def Value.expression? : Value → Option ClassExpression
  | .expression e => some e
  | .individual _ | .literal _ => none

namespace World

/-- The terms that the graphs of ontologies are written with, apart from datatypes. -/
def terms : List String :=
  Rdf.rdf.terms ++ Rdf.rdfs.terms ++ Rdf.owl.terms ++ Rdf.swrl.terms

variable {w : World} {inferred : Bool} {t : Triple} {path : List Nat}

/-! ### Parts of the graph -/

/-- What is written for an entity. -/
def entityTriples (w : World) (inferred : Bool) : Reference → List Triple
  | .class c => w.classTriples c
  | .property p => w.propertyTriples p
  | .individual i => w.individualTriples inferred i

/-- The parts that the triples of a graph come from. -/
theorem mem_toGraph : t ∈ (w.toGraph inferred).triples ↔
    t ∈ w.headerTriples ∨ (∃ r, w.Has r ∧ t ∈ w.entityTriples inferred r) ∨
      (∃ group n, (group, n) ∈ w.differentIndividuals.zipIdx ∧ t ∈ w.differentTriples n group) ∨
      ∃ r n, (r, n) ∈ w.rules.toList.zipIdx ∧ t ∈ w.ruleTriples n r := by
  have hentities : (∃ r, w.Has r ∧ t ∈ w.entityTriples inferred r) ↔
      (∃ c, w.Has (.class c) ∧ t ∈ w.classTriples c) ∨
      (∃ p, w.Has (.property p) ∧ t ∈ w.propertyTriples p) ∨
      ∃ i, w.Has (.individual i) ∧ t ∈ w.individualTriples inferred i := by
    constructor
    · rintro ⟨c | p | i, hr, ht⟩
      · exact .inl ⟨c, hr, ht⟩
      · exact .inr (.inl ⟨p, hr, ht⟩)
      · exact .inr (.inr ⟨i, hr, ht⟩)
    · rintro (⟨c, hc, ht⟩ | ⟨p, hp, ht⟩ | ⟨i, hi, ht⟩)
      · exact ⟨.class c, hc, ht⟩
      · exact ⟨.property p, hp, ht⟩
      · exact ⟨.individual i, hi, ht⟩
  simp only [hentities, toGraph, Rdf.Graph.mem_ofList, List.mem_append, List.mem_flatMap,
    Prod.exists, mem_classIds, mem_propertyIds, mem_individualIds_iff_has, or_assoc]

theorem mem_toGraph_of_mem_entityTriples {r : Reference} (hr : w.Has r)
    (h : t ∈ w.entityTriples inferred r) : t ∈ (w.toGraph inferred).triples :=
  mem_toGraph.mpr (.inr (.inl ⟨r, hr, h⟩))

theorem mem_expressionAxioms {subject predicate : String} {es : List ClassExpression} :
    t ∈ w.expressionAxioms path subject predicate es ↔ ∃ n e, es[n]? = some e ∧
      (t ∈ w.expressionTriples (n :: path) e ∨
        t = ⟨.iri subject, predicate, w.expressionNode (n :: path) e⟩) := by
  simp only [expressionAxioms, expressionAxiom, List.mem_flatMap, List.mem_append,
    List.mem_singleton, Prod.exists, List.mem_zipIdx_iff_getElem?]
  exact exists_comm

theorem mem_factTriples {subject : String} {facts : Assertions} :
    t ∈ w.factTriples path subject facts ↔ ∃ n p v, facts.toList[n]? = some (p, v) ∧
      (t ∈ w.valueTriples (n :: path) v ∨
        t = ⟨.iri subject, w.propertyIri p, w.valueNode (n :: path) v⟩) := by
  simp only [factTriples, List.mem_flatMap, List.mem_append, List.mem_singleton, Prod.exists,
    List.mem_zipIdx_iff_getElem?]
  constructor
  · rintro ⟨p, v, n, h⟩
    exact ⟨n, p, v, h⟩
  · rintro ⟨n, p, v, h⟩
    exact ⟨p, v, n, h⟩

theorem mem_individualTriples {i : IndividualId} : t ∈ w.individualTriples inferred i ↔
    t = ⟨.iri (w.individualIri i), Rdf.rdf.type, .iri Rdf.owl.namedIndividual⟩ ∨
    t ∈ w.expressionAxioms [i.index, 4] (w.individualIri i) Rdf.rdf.type
      ((w.getIndividual i).isA.filter (· ≠ .thing)) ∨
    t ∈ w.factTriples [i.index, 5] (w.individualIri i) (w.getIndividual i).facts ∨
    inferred = true ∧
      ((∃ c ∈ (w.getIndividual i).inferredTypes,
        t = ⟨.iri (w.individualIri i), Rdf.rdf.type, .iri (w.classIri c)⟩) ∨
      t ∈ w.factTriples [i.index, 6] (w.individualIri i) (w.getIndividual i).inferredFacts) := by
  cases inferred <;>
    simp [individualTriples, individualIri, eq_comm (b := t)]

theorem exists_of_mem_valueTriples {v : Value} (h : t ∈ w.valueTriples path v) :
    ∃ e, v = .expression e ∧ t ∈ w.expressionTriples path e := by
  cases v with
  | expression e => exact ⟨e, rfl, h⟩
  | individual i | literal l => exact absurd h List.not_mem_nil

/-! ### The places of expressions -/

/-- The expression that is written for a place: a parent or a definition of a class, a part of the
domain or the range of a property, or a type or a value of an individual. -/
def expressionAt (w : World) (inferred : Bool) : List Nat → Option ClassExpression
  | [n, c, 0] => (w.class? ⟨c⟩).bind fun d => if d.imported then none else d.isA[n]?
  | [n, c, 1] => (w.class? ⟨c⟩).bind fun d => if d.imported then none else d.equivalentTo[n]?
  | [n, p, 2] => (w.property? ⟨p⟩).bind fun d => d.domain[n]?
  | [n, p, 3] => (w.property? ⟨p⟩).bind fun d => d.rangeClasses[n]?
  | [n, i, 4] => (w.individual? ⟨i⟩).bind fun d => (d.isA.filter (· ≠ .thing))[n]?
  | [n, i, 5] => (w.individual? ⟨i⟩).bind fun d => d.facts.toList[n]?.bind fun f => f.2.expression?
  | [n, i, 6] => (w.individual? ⟨i⟩).bind fun d =>
    if inferred then d.inferredFacts.toList[n]?.bind fun f => f.2.expression? else none
  | _ => none

/-- A triple has a name as its subject, or a node that is made for a place at which it belongs to
the expression that is written there, if there is one. -/
def IsPlaced (w : World) (inferred : Bool) (t : Triple) : Prop :=
  (∃ iri, t.subject = .iri iri) ∨ ∃ path, path.length = 3 ∧ t.IsBelow path ∧
    ∀ e, w.expressionAt inferred path = some e → t ∈ w.expressionTriples path e

theorem isPlaced_iri {iri predicate : String} {object : Rdf.Term} :
    w.IsPlaced inferred ⟨.iri iri, predicate, object⟩ :=
  .inl ⟨iri, rfl⟩

/-- A triple at a place where no expression is written. -/
theorem isPlaced_of_isBelow (hlength : path.length = 3) (h : t.IsBelow path)
    (hnone : w.expressionAt inferred path = none) : w.IsPlaced inferred t :=
  .inr ⟨path, hlength, h, fun e he => by rw [hnone] at he; cases he⟩

theorem isPlaced_of_mem_expressionAxioms {subject predicate : String} {es : List ClassExpression}
    (hlength : path.length = 2)
    (hat : ∀ n e, w.expressionAt inferred (n :: path) = some e → es[n]? = some e)
    (h : t ∈ w.expressionAxioms path subject predicate es) : w.IsPlaced inferred t := by
  obtain ⟨n, e, he, ht | rfl⟩ := mem_expressionAxioms.mp h
  · refine .inr ⟨n :: path, congrArg (· + 1) hlength, isBelow_of_mem_expressionTriples ht,
      fun e' he' => ?_⟩
    have heq := hat n e' he'
    rw [he, Option.some.injEq] at heq
    rwa [← heq]
  · exact isPlaced_iri

theorem isPlaced_of_mem_factTriples {subject : String} {facts : Assertions}
    (hlength : path.length = 2)
    (hat : ∀ n e, w.expressionAt inferred (n :: path) = some e →
      facts.toList[n]?.bind (fun f => f.2.expression?) = some e)
    (h : t ∈ w.factTriples path subject facts) : w.IsPlaced inferred t := by
  obtain ⟨n, p, v, hv, ht | rfl⟩ := mem_factTriples.mp h
  · obtain ⟨e, rfl, ht⟩ := exists_of_mem_valueTriples ht
    refine .inr ⟨n :: path, congrArg (· + 1) hlength, isBelow_of_mem_expressionTriples ht,
      fun e' he' => ?_⟩
    have heq := hat n e' he'
    rw [hv] at heq
    rwa [← Option.some.inj heq]
  · exact isPlaced_iri

theorem isPlaced_of_mem_textTriples {subject predicate : String} {texts : List String}
    (h : t ∈ textTriples subject predicate texts) : w.IsPlaced inferred t := by
  obtain ⟨_, -, rfl⟩ := List.mem_map.mp h
  exact isPlaced_iri

theorem isPlaced_of_mem_headerTriples (h : t ∈ w.headerTriples) : w.IsPlaced inferred t := by
  simp only [headerTriples, List.mem_cons, List.mem_append, List.mem_map] at h
  rcases h with (rfl | h) | ⟨i, -, rfl⟩
  · exact isPlaced_iri
  · exact isPlaced_of_mem_textTriples h
  · exact isPlaced_iri

theorem isPlaced_of_mem_classTriples {c : ClassId} (h : t ∈ w.classTriples c) :
    w.IsPlaced inferred t := by
  rw [classTriples, getClass] at h
  split at h
  · exact absurd h List.not_mem_nil
  next himported =>
  simp only [List.mem_cons, List.mem_append] at h
  rcases h with (((rfl | h) | h) | h) | h
  · exact isPlaced_iri
  · refine isPlaced_of_mem_expressionAxioms rfl (fun n e he => ?_) h
    obtain ⟨d, hd, he⟩ := Option.bind_eq_some_iff.mp he
    rw [hd] at himported ⊢
    exact (if_neg himported).symm.trans he
  · refine isPlaced_of_mem_expressionAxioms rfl (fun n e he => ?_) h
    obtain ⟨d, hd, he⟩ := Option.bind_eq_some_iff.mp he
    rw [hd] at himported ⊢
    exact (if_neg himported).symm.trans he
  · exact isPlaced_of_mem_textTriples h
  · exact isPlaced_of_mem_textTriples h

theorem isPlaced_of_mem_rangeTriples {p : PropertyId} {subject : String}
    (h : t ∈ w.rangeTriples [p.index, 3] subject (w.getProperty p).range) :
    w.IsPlaced inferred t := by
  have hat : ∀ n e, w.expressionAt inferred [n, p.index, 3] = some e →
      (w.getProperty p).rangeClasses[n]? = some e := by
    intro n e he
    obtain ⟨d, hd, he⟩ := Option.bind_eq_some_iff.mp he
    rwa [getProperty, hd]
  rw [Property.rangeClasses] at hat
  revert h hat
  cases (w.getProperty p).range with
  | classes es => exact fun h hat => isPlaced_of_mem_expressionAxioms rfl hat h
  | datatypes ds =>
    intro h hat
    have hnone : w.expressionAt inferred [0, p.index, 3] = none := by
      rw [Option.eq_none_iff_forall_ne_some]
      intro e he
      simpa using hat 0 e he
    rcases ds with _ | ⟨d, _ | ⟨d', more⟩⟩
    · exact absurd h List.not_mem_nil
    · rw [List.mem_singleton.mp h]
      exact isPlaced_iri
    · simp only [rangeTriples, List.mem_append, List.mem_cons, List.not_mem_nil, or_false] at h
      rcases h with h | rfl | rfl
      · exact isPlaced_of_isBelow rfl (isBelow_of_mem_listTriples h).of_cons hnone
      · exact isPlaced_of_isBelow rfl Rdf.Triple.isBelow_self hnone
      · exact isPlaced_iri

theorem isPlaced_of_mem_propertyTriples {p : PropertyId} (h : t ∈ w.propertyTriples p) :
    w.IsPlaced inferred t := by
  simp only [propertyTriples, List.mem_cons, List.mem_append, List.mem_map] at h
  rcases h with (((((((rfl | ⟨_, -, rfl⟩) | h) | h) | ⟨_, -, rfl⟩) | ⟨_, -, rfl⟩) | h) | h)
  · exact isPlaced_iri
  · exact isPlaced_iri
  · refine isPlaced_of_mem_expressionAxioms rfl (fun n e he => ?_) h
    obtain ⟨d, hd, he⟩ := Option.bind_eq_some_iff.mp he
    rwa [getProperty, hd]
  · exact isPlaced_of_mem_rangeTriples h
  · exact isPlaced_iri
  · exact isPlaced_iri
  · exact isPlaced_of_mem_textTriples h
  · exact isPlaced_of_mem_textTriples h

theorem isPlaced_of_mem_individualTriples {i : IndividualId}
    (h : t ∈ w.individualTriples inferred i) : w.IsPlaced inferred t := by
  rcases mem_individualTriples.mp h with rfl | h | h | ⟨hinferred, ⟨_, -, rfl⟩ | h⟩
  · exact isPlaced_iri
  · refine isPlaced_of_mem_expressionAxioms rfl (fun n e he => ?_) h
    obtain ⟨d, hd, he⟩ := Option.bind_eq_some_iff.mp he
    rwa [getIndividual, hd]
  · refine isPlaced_of_mem_factTriples rfl (fun n e he => ?_) h
    obtain ⟨d, hd, he⟩ := Option.bind_eq_some_iff.mp he
    rwa [getIndividual, hd]
  · exact isPlaced_iri
  · refine isPlaced_of_mem_factTriples rfl (fun n e he => ?_) h
    obtain ⟨d, hd, he⟩ := Option.bind_eq_some_iff.mp he
    rw [if_pos hinferred] at he
    rwa [getIndividual, hd]

theorem isPlaced_of_mem_differentTriples {n : Nat} {group : List IndividualId}
    (h : t ∈ w.differentTriples n group) : w.IsPlaced inferred t := by
  have hbelow : t.IsBelow [0, n, 7] := by
    rcases List.mem_append.mp h with h | h
    · exact (isBelow_of_mem_listTriples h).of_cons
    · simp only [atPlace, List.mem_cons, List.not_mem_nil, or_false] at h
      rcases h with rfl | rfl <;> exact Rdf.Triple.isBelow_self
  exact isPlaced_of_isBelow rfl hbelow rfl

/-! ### Rules -/

theorem isBelow_or_of_mem_argumentTriples {predicate : String} {a : Argument}
    (h : t ∈ w.argumentTriples path predicate a) :
    t.IsBelow path ∨ ∃ name, t = ⟨.iri name, Rdf.rdf.type, .iri Rdf.swrl.ruleVariable⟩ := by
  rcases List.mem_cons.mp h with rfl | h
  · exact .inl Rdf.Triple.isBelow_self
  · cases a with
    | «variable» name => exact .inr ⟨_, List.mem_singleton.mp h⟩
    | individual i | literal l => exact absurd h List.not_mem_nil

/-- Apart from the types of its variables, an atom describes nodes made for its place. -/
theorem isBelow_or_of_mem_atomTriples {atom : Atom} (h : t ∈ w.atomTriples path atom) :
    t.IsBelow path ∨ ∃ name, t = ⟨.iri name, Rdf.rdf.type, .iri Rdf.swrl.ruleVariable⟩ := by
  cases atom with
  | type c a =>
    rcases List.mem_cons.mp h with rfl | h
    · exact .inl Rdf.Triple.isBelow_self
    rcases List.mem_cons.mp h with rfl | h
    · exact .inl Rdf.Triple.isBelow_self
    · exact isBelow_or_of_mem_argumentTriples h
  | fact p s o =>
    rcases List.mem_cons.mp h with rfl | h
    · exact .inl Rdf.Triple.isBelow_self
    rcases List.mem_cons.mp h with rfl | h
    · exact .inl Rdf.Triple.isBelow_self
    rcases List.mem_append.mp h with h | h
    · exact isBelow_or_of_mem_argumentTriples h
    · exact isBelow_or_of_mem_argumentTriples h
  | same a b | different a b =>
    rcases List.mem_cons.mp h with rfl | h
    · exact .inl Rdf.Triple.isBelow_self
    rcases List.mem_append.mp h with h | h
    · exact isBelow_or_of_mem_argumentTriples h
    · exact isBelow_or_of_mem_argumentTriples h

theorem isBelow_or_of_mem_atomListTriples {atoms : List Atom}
    (h : t ∈ w.atomListTriples path atoms) :
    t.IsBelow path ∨ ∃ name, t = ⟨.iri name, Rdf.rdf.type, .iri Rdf.swrl.ruleVariable⟩ := by
  rcases List.mem_append.mp h with h | h
  · obtain ⟨⟨atom, n⟩, -, h⟩ := List.mem_flatMap.mp h
    exact (isBelow_or_of_mem_atomTriples h).imp_left fun h => h.of_cons.of_cons
  · exact .inl (isBelow_of_mem_listTriples h).of_cons

/-- Apart from the types of its variables, a rule describes nodes made for its place. -/
theorem isBelow_or_of_mem_ruleTriples {n : Nat} {r : Rule} (h : t ∈ w.ruleTriples n r) :
    t.IsBelow [0, n, 8] ∨
      ∃ name, t = ⟨.iri name, Rdf.rdf.type, .iri Rdf.swrl.ruleVariable⟩ := by
  simp only [ruleTriples, List.mem_cons, List.mem_append, List.mem_map, List.not_mem_nil,
    or_false] at h
  rcases h with (((rfl | rfl | ⟨_, -, rfl⟩) | h) | h) | rfl | rfl
  · exact .inl Rdf.Triple.isBelow_self
  · exact .inl Rdf.Triple.isBelow_self
  · exact .inl Rdf.Triple.isBelow_self
  · exact (isBelow_or_of_mem_atomListTriples h).imp_left fun h => h.of_cons.of_cons
  · exact (isBelow_or_of_mem_atomListTriples h).imp_left fun h => h.of_cons.of_cons
  · exact .inl Rdf.Triple.isBelow_self
  · exact .inl Rdf.Triple.isBelow_self

theorem isPlaced_of_mem_ruleTriples {n : Nat} {r : Rule} (h : t ∈ w.ruleTriples n r) :
    w.IsPlaced inferred t := by
  rcases isBelow_or_of_mem_ruleTriples h with h | ⟨name, rfl⟩
  · exact isPlaced_of_isBelow rfl h rfl
  · exact isPlaced_iri

/-! ### Expressions in the graph of an ontology -/

/-- Each triple of a graph has a name as its subject or belongs to a place. -/
theorem isPlaced_of_mem_toGraph (h : t ∈ (w.toGraph inferred).triples) : w.IsPlaced inferred t := by
  rcases mem_toGraph.mp h with h | ⟨c | p | i, -, h⟩ | ⟨group, n, -, h⟩ | ⟨r, n, -, h⟩
  · exact isPlaced_of_mem_headerTriples h
  · exact isPlaced_of_mem_classTriples h
  · exact isPlaced_of_mem_propertyTriples h
  · exact isPlaced_of_mem_individualTriples h
  · exact isPlaced_of_mem_differentTriples h
  · exact isPlaced_of_mem_ruleTriples h

theorem length_of_expressionAt {e : ClassExpression} (h : w.expressionAt inferred path = some e) :
    path.length = 3 := by
  rw [expressionAt.eq_def] at h
  split at h
  all_goals first | rfl | cases h

theorem mem_expressionAxioms_of_getElem? {subject predicate : String} {es : List ClassExpression}
    {e : ClassExpression} {n : Nat} (he : es[n]? = some e)
    (ht : t ∈ w.expressionTriples (n :: path) e) :
    t ∈ w.expressionAxioms path subject predicate es :=
  mem_expressionAxioms.mpr ⟨n, e, he, .inl ht⟩

theorem mem_factTriples_of_getElem? {subject : String} {facts : Assertions} {e : ClassExpression}
    {n : Nat} (he : facts.toList[n]?.bind (fun f => f.2.expression?) = some e)
    (ht : t ∈ w.expressionTriples (n :: path) e) : t ∈ w.factTriples path subject facts := by
  obtain ⟨⟨p, v⟩, hv, he⟩ := Option.bind_eq_some_iff.mp he
  cases v with
  | expression e' =>
    cases he
    exact mem_factTriples.mpr ⟨n, p, .expression e, hv, .inl ht⟩
  | individual i | literal l => cases he

/-- The parents and the definitions of a class are written unless it is imported. -/
theorem mem_classTriples_of_mem {c : ClassId} {d : Class} (hd : w.class? c = some d)
    (himported : d.imported = false)
    (h : t ∈ w.expressionAxioms [c.index, 0] d.iri Rdf.rdfs.subClassOf d.isA ∨
      t ∈ w.expressionAxioms [c.index, 1] d.iri Rdf.owl.equivalentClass d.equivalentTo) :
    t ∈ w.classTriples c := by
  rw [classTriples, getClass_eq hd, if_neg (by simp [himported])]
  simp only [List.mem_cons, List.mem_append]
  tauto

/-- The domain and the range of a property are written. -/
theorem mem_propertyTriples_of_mem {p : PropertyId} {d : Property} (hd : w.property? p = some d)
    (h : t ∈ w.expressionAxioms [p.index, 2] d.iri Rdf.rdfs.domain d.domain ∨
      t ∈ w.rangeTriples [p.index, 3] d.iri d.range) : t ∈ w.propertyTriples p := by
  rw [propertyTriples, getProperty_eq hd]
  simp only [List.mem_cons, List.mem_append]
  tauto

/-- The triples of an expression that is written belong to an entity. -/
theorem exists_mem_entityTriples_of_expressionAt {e : ClassExpression}
    (h : w.expressionAt inferred path = some e) (ht : t ∈ w.expressionTriples path e) :
    ∃ r, w.Has r ∧ t ∈ w.entityTriples inferred r := by
  rw [expressionAt.eq_def] at h
  split at h
  case h_1 n c | h_2 n c =>
    obtain ⟨d, hd, he⟩ := Option.bind_eq_some_iff.mp h
    split at he
    · cases he
    next himported =>
    refine ⟨.class ⟨c⟩, has_class_iff.mpr ⟨d, hd⟩,
      mem_classTriples_of_mem hd (by simpa using himported) ?_⟩
    first
    | exact .inl (mem_expressionAxioms_of_getElem? he ht)
    | exact .inr (mem_expressionAxioms_of_getElem? he ht)
  case h_3 n p =>
    obtain ⟨d, hd, he⟩ := Option.bind_eq_some_iff.mp h
    exact ⟨.property ⟨p⟩, has_property_iff.mpr ⟨d, hd⟩,
      mem_propertyTriples_of_mem hd (.inl (mem_expressionAxioms_of_getElem? he ht))⟩
  case h_4 n p =>
    obtain ⟨d, hd, he⟩ := Option.bind_eq_some_iff.mp h
    refine ⟨.property ⟨p⟩, has_property_iff.mpr ⟨d, hd⟩, mem_propertyTriples_of_mem hd (.inr ?_)⟩
    rw [Property.rangeClasses] at he
    revert he
    cases d.range with
    | classes es => exact fun he => mem_expressionAxioms_of_getElem? he ht
    | datatypes ds => exact fun he => by simp at he
  case h_5 n i | h_6 n i | h_7 n i =>
    obtain ⟨d, hd, he⟩ := Option.bind_eq_some_iff.mp h
    refine ⟨.individual ⟨i⟩, has_individual_iff.mpr ⟨d, hd⟩, mem_individualTriples.mpr ?_⟩
    rw [getIndividual_eq hd]
    first
    | exact .inr (.inl (mem_expressionAxioms_of_getElem? he ht))
    | exact .inr (.inr (.inl (mem_factTriples_of_getElem? he ht)))
    | split at he
      · next hinferred =>
        exact .inr (.inr (.inr ⟨hinferred, .inr (mem_factTriples_of_getElem? he ht)⟩))
      · cases he
  case h_8 => cases h

/-- **The graph of an ontology holds each of its expressions apart.** -/
theorem holdsApart_toGraph {e : ClassExpression} (h : w.expressionAt inferred path = some e) :
    (w.toGraph inferred).HoldsApart path (w.expressionTriples path e) where
  holds _ ht := by
    obtain ⟨r, hr, ht⟩ := exists_mem_entityTriples_of_expressionAt h ht
    exact mem_toGraph_of_mem_entityTriples hr ht
  apart t ht hbelow := by
    rcases isPlaced_of_mem_toGraph ht with ⟨iri, hsubject⟩ | ⟨path', hlength, hbelow', hplaced⟩
    · obtain ⟨place, hplace, -⟩ := hbelow
      rw [hsubject] at hplace
      cases hplace
    · obtain rfl := hbelow.eq_of_length hbelow' ((length_of_expressionAt h).trans hlength.symm)
      exact hplaced e h

/-- **The graph of an ontology holds each of its expressions at its node.** -/
theorem encodes_toGraph {e : ClassExpression} (h : w.expressionAt inferred path = some e) :
    w.Encodes (w.toGraph inferred) (w.expressionNode path e) e :=
  encodes_of_holdsApart (holdsApart_toGraph h)

/-! ### What the graph says of an entity -/

section Named

variable {iri subject predicate : String} {object : Rdf.Term}

theorem not_isBelow_iri : ¬Rdf.Triple.IsBelow ⟨.iri iri, predicate, object⟩ path := by
  rintro ⟨place, hsubject, -⟩
  cases hsubject

theorem mem_expressionAxioms_iri {predicate' : String} {es : List ClassExpression} :
    ⟨.iri iri, predicate', object⟩ ∈ w.expressionAxioms path subject predicate es ↔
      iri = subject ∧ predicate' = predicate ∧
        ∃ n e, es[n]? = some e ∧ object = w.expressionNode (n :: path) e := by
  rw [mem_expressionAxioms]
  constructor
  · rintro ⟨n, e, he, ht | heq⟩
    · exact absurd (isBelow_of_mem_expressionTriples ht) not_isBelow_iri
    · cases heq
      exact ⟨rfl, rfl, n, e, he, rfl⟩
  · rintro ⟨rfl, rfl, n, e, he, rfl⟩
    exact ⟨n, e, he, .inr rfl⟩

theorem mem_factTriples_iri {facts : Assertions} :
    ⟨.iri iri, predicate, object⟩ ∈ w.factTriples path subject facts ↔ iri = subject ∧
      ∃ n p v, facts.toList[n]? = some (p, v) ∧ predicate = w.propertyIri p ∧
        object = w.valueNode (n :: path) v := by
  rw [mem_factTriples]
  constructor
  · rintro ⟨n, p, v, hv, ht | heq⟩
    · obtain ⟨e, -, ht⟩ := exists_of_mem_valueTriples ht
      exact absurd (isBelow_of_mem_expressionTriples ht) not_isBelow_iri
    · cases heq
      exact ⟨rfl, n, p, v, hv, rfl, rfl⟩
  · rintro ⟨rfl, n, p, v, hv, rfl, rfl⟩
    exact ⟨n, p, v, hv, .inr rfl⟩

theorem eq_of_mem_textTriples {predicate' : String} {texts : List String}
    (h : ⟨.iri iri, predicate', object⟩ ∈ textTriples subject predicate texts) :
    iri = subject := by
  obtain ⟨_, -, heq⟩ := List.mem_map.mp h
  cases heq
  rfl

/-- What a class says by name it says of itself. -/
theorem eq_of_mem_classTriples {c : ClassId}
    (h : ⟨.iri iri, predicate, object⟩ ∈ w.classTriples c) : iri = w.classIri c := by
  rw [classIri]
  rw [classTriples] at h
  split at h
  · exact absurd h List.not_mem_nil
  simp only [List.mem_cons, List.mem_append] at h
  rcases h with (((heq | h) | h) | h) | h
  · cases heq
    rfl
  · exact (mem_expressionAxioms_iri.mp h).1
  · exact (mem_expressionAxioms_iri.mp h).1
  · exact eq_of_mem_textTriples h
  · exact eq_of_mem_textTriples h

theorem eq_of_mem_rangeTriples {range : PropertyRange}
    (h : ⟨.iri iri, predicate, object⟩ ∈ w.rangeTriples path subject range) : iri = subject := by
  match range, h with
  | .classes es, h => exact (mem_expressionAxioms_iri.mp h).1
  | .datatypes [], h => exact absurd h List.not_mem_nil
  | .datatypes [d], h =>
    cases List.mem_singleton.mp h
    rfl
  | .datatypes (d :: d' :: more), h =>
    simp only [rangeTriples, List.mem_append, List.mem_cons, List.not_mem_nil, or_false] at h
    rcases h with h | heq | heq
    · exact absurd (isBelow_of_mem_listTriples h) not_isBelow_iri
    · cases heq
    · cases heq
      rfl

/-- What a property says by name it says of itself. -/
theorem eq_of_mem_propertyTriples {p : PropertyId}
    (h : ⟨.iri iri, predicate, object⟩ ∈ w.propertyTriples p) : iri = w.propertyIri p := by
  rw [propertyIri]
  simp only [propertyTriples, List.mem_cons, List.mem_append, List.mem_map] at h
  rcases h with (((((((heq | ⟨_, -, heq⟩) | h) | h) | ⟨_, -, heq⟩) | ⟨_, -, heq⟩) | h) | h)
  · cases heq
    rfl
  · cases heq
    rfl
  · exact (mem_expressionAxioms_iri.mp h).1
  · exact eq_of_mem_rangeTriples h
  · cases heq
    rfl
  · cases heq
    rfl
  · exact eq_of_mem_textTriples h
  · exact eq_of_mem_textTriples h

/-- What an individual says by name it says of itself. -/
theorem eq_of_mem_individualTriples {i : IndividualId}
    (h : ⟨.iri iri, predicate, object⟩ ∈ w.individualTriples inferred i) :
    iri = w.individualIri i := by
  rcases mem_individualTriples.mp h with heq | h | h | ⟨-, ⟨_, -, heq⟩ | h⟩
  · cases heq
    rfl
  · exact (mem_expressionAxioms_iri.mp h).1
  · exact (mem_factTriples_iri.mp h).1
  · cases heq
    rfl
  · exact (mem_factTriples_iri.mp h).1

/-- What an entity says by name it says of itself. -/
theorem eq_of_mem_entityTriples {r : Reference}
    (h : ⟨.iri iri, predicate, object⟩ ∈ w.entityTriples inferred r) : iri = r.iri w := by
  cases r with
  | «class» c => exact eq_of_mem_classTriples h
  | property p => exact eq_of_mem_propertyTriples h
  | individual i => exact eq_of_mem_individualTriples h

/-- What a graph says of an entity by name is written for the entity, or it is said of the ontology
or of a variable that has the same IRI. -/
theorem mem_entityTriples_of_mem_toGraph {vocabulary : List String}
    (hw : w.KeepsApart vocabulary) {r : Reference} (hr : w.Has r)
    (h : ⟨.iri (r.iri w), predicate, object⟩ ∈ (w.toGraph inferred).triples) :
    ⟨.iri (r.iri w), predicate, object⟩ ∈ w.entityTriples inferred r ∨
      (predicate = Rdf.rdf.type ∧
        (object = .iri Rdf.owl.ontology ∨ object = .iri Rdf.swrl.ruleVariable)) ∨
      predicate = Rdf.rdfs.comment ∨ predicate = Rdf.owl.imports := by
  rcases mem_toGraph.mp h with h | ⟨r', hr', h⟩ | ⟨group, n, -, h⟩ | ⟨rule, n, -, h⟩
  · simp only [headerTriples, textTriples, List.mem_cons, List.mem_append, List.mem_map] at h
    rcases h with (heq | ⟨_, -, heq⟩) | ⟨_, -, heq⟩
    · obtain ⟨-, rfl, rfl⟩ := Rdf.Triple.mk.inj heq
      exact .inr (.inl ⟨rfl, .inl rfl⟩)
    · obtain ⟨-, rfl, -⟩ := Rdf.Triple.mk.inj heq
      exact .inr (.inr (.inl rfl))
    · obtain ⟨-, rfl, -⟩ := Rdf.Triple.mk.inj heq
      exact .inr (.inr (.inr rfl))
  · obtain rfl := hw.iri_inj hr hr' (eq_of_mem_entityTriples h)
    exact .inl h
  · rcases List.mem_append.mp h with h | h
    · exact absurd (isBelow_of_mem_listTriples h) not_isBelow_iri
    · simp [atPlace] at h
  · rcases isBelow_or_of_mem_ruleTriples h with h | ⟨name, heq⟩
    · exact absurd h not_isBelow_iri
    · cases heq
      exact .inr (.inl ⟨rfl, .inr rfl⟩)

end Named

end World

end Ontology
