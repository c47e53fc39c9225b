import Ontology.Proofs.Export
import Ontology.Proofs.Grounded

/-!
# Restrictions in a graph

A restriction in a document becomes an axiom of its subject, and axioms stay while the rest of the
document is read.  The graph of the ontology relates each individual, and each class that the
document declares, to the nodes of its axioms.  Imported classes are not described in it at all, so
a restriction on one of them is known to the ontology and missing from its graph.

## Main definitions

* `LoadSession.start` — loading before any statement.
* `World.axiomsOf` — what is said of an individual or a class.
* `World.IsImported` — an entity is a class from an imported file.
* `World.States` — a graph relates an individual or a class to a node of an expression.

## Main results

* `World.IsExtendedBy.mem_axiomsOf` — axioms stay.
* `World.states_of_mem_axiomsOf` — a graph states the axioms of what is not imported.
* `World.states_restriction` — **a graph states each restriction of a document, but those on
  imported classes.**
-/

namespace Ontology

/-! ### Axioms of entities -/

namespace World

/-- What is said of an individual or a class. -/
def axiomsOf (w : World) : Entity → List ClassExpression
  | .individual i => (w.getIndividual i).isA
  | .class c => (w.getClass c).isA
  | _ => []

/-- An entity is a class from an imported file. -/
def IsImported (w : World) : Entity → Prop
  | .class c => (w.getClass c).imported = true
  | _ => False

/-- A graph relates an individual by its types, or a class by its superclasses, to a node at which
it holds an expression. -/
def States (w : World) (g : Rdf.Graph) (e : ClassExpression) : Entity → Prop
  | .individual i => ∃ node, ⟨.iri (w.individualIri i), Rdf.rdf.type, node⟩ ∈ g.triples ∧
      w.Encodes g node e
  | .class c => ∃ node, ⟨.iri (w.classIri c), Rdf.rdfs.subClassOf, node⟩ ∈ g.triples ∧
      w.Encodes g node e
  | _ => False

variable {w w' : World} {subject : Entity} {e : ClassExpression} {inferred : Bool}

/-- Axioms stay. -/
theorem IsExtendedBy.mem_axiomsOf (h : w.IsExtendedBy w') (he : e ∈ w.axiomsOf subject) :
    e ∈ w'.axiomsOf subject := by
  cases subject with
  | individual i =>
    obtain ⟨axioms, facts, hd⟩ := h.individuals i _ (individual?_of_mem_isA he)
    rw [axiomsOf, getIndividual, hd]
    exact List.mem_append_left _ he
  | «class» c =>
    obtain ⟨axioms, hd⟩ := h.classes c _ (class?_of_mem_isA he)
    rw [axiomsOf, getClass, hd]
    exact List.mem_append_left _ he
  | _ => exact absurd he List.not_mem_nil

/-! ### Axioms in a graph -/

/-- A graph states the axioms of what is not imported, but that an individual is a thing. -/
theorem states_of_mem_axiomsOf (he : e ∈ w.axiomsOf subject) (hthing : e ≠ .thing)
    (himported : ¬w.IsImported subject) : w.States (w.toGraph inferred) e subject := by
  cases subject with
  | individual i =>
    have hd := individual?_of_mem_isA he
    have hmem : e ∈ (w.getIndividual i).isA.filter (· ≠ .thing) :=
      List.mem_filter.mpr ⟨he, decide_eq_true hthing⟩
    obtain ⟨n, hn⟩ := List.mem_iff_getElem?.mp hmem
    refine ⟨w.expressionNode [n, i.index, 4] e, ?_, encodes_toGraph ?_⟩
    · exact mem_toGraph_of_mem_entityTriples (has_individual_iff.mpr ⟨_, hd⟩)
        (mem_individualTriples.mpr (.inr (.inl
          (mem_expressionAxioms_iri.mpr ⟨rfl, rfl, n, e, hn, rfl⟩))))
    · exact Option.bind_eq_some_iff.mpr ⟨_, hd, hn⟩
  | «class» c =>
    have hd := class?_of_mem_isA he
    have himported : (w.getClass c).imported = false := Bool.eq_false_iff.mpr himported
    obtain ⟨n, hn⟩ := List.mem_iff_getElem?.mp he
    refine ⟨w.expressionNode [n, c.index, 0] e, ?_, encodes_toGraph ?_⟩
    · exact mem_toGraph_of_mem_entityTriples (has_class_iff.mpr ⟨_, hd⟩)
        (mem_classTriples_of_mem hd himported (.inl
          (mem_expressionAxioms_iri.mpr ⟨rfl, rfl, n, e, hn, rfl⟩)))
    · refine Option.bind_eq_some_iff.mpr ⟨_, hd, ?_⟩
      rw [himported]
      exact hn
  | _ => exact absurd he List.not_mem_nil

/-- A graph says nothing of the superclasses of an imported class. -/
theorem not_mem_toGraph_of_imported {vocabulary : List String} (hw : w.KeepsApart vocabulary)
    {c : ClassId} (hc : w.Has (.class c)) (himported : (w.getClass c).imported = true)
    {node : Rdf.Term} :
    ⟨.iri (w.classIri c), Rdf.rdfs.subClassOf, node⟩ ∉ (w.toGraph inferred).triples := by
  intro h
  rcases mem_entityTriples_of_mem_toGraph (r := .class c) hw hc h with
    h | ⟨htype, -⟩ | hcomment | himports
  · rw [entityTriples, classTriples, if_pos himported] at h
    exact absurd h List.not_mem_nil
  · exact absurd htype (by decide)
  · exact absurd hcomment (by decide)
  · exact absurd himports (by decide)

theorem not_states_of_isImported {vocabulary : List String} (hw : w.KeepsApart vocabulary)
    (he : e ∈ w.axiomsOf subject) (himported : w.IsImported subject) :
    ¬w.States (w.toGraph inferred) e subject := by
  cases subject with
  | «class» c =>
    rintro ⟨node, h, -⟩
    exact not_mem_toGraph_of_imported hw (has_class_iff.mpr ⟨_, class?_of_mem_isA he⟩) himported h
  | _ => exact absurd himported id

end World

/-! ### Restrictions of a document -/

namespace LoadSession

open World

variable {s s' : LoadSession} {t : Tree}

/-- Loading before any statement, of which one may give the IRI of the ontology. -/
def start (settings : LoadSettings) (folder : Folder) (base : String)
    (statements : List (String × Tree)) : LoadSession where
  world := { iri := (Shape.baseIri? statements).getD settings.defaultIri }
  settings := settings
  folder := folder
  base := base

/-- The ontology of a document is what its statements lead to from there. -/
theorem exists_load_start {settings : LoadSettings} {folder : Folder} {base : String}
    {document : Tree} {statements : List (String × Tree)} {w : World}
    (h : World.load settings folder base document = .ok w)
    (hstatements : Shape.statements document = .ok statements) :
    ∃ last, (start settings folder base statements).load statements = .ok last ∧
      last.world = w := by
  obtain ⟨read, hread, h⟩ := exists_of_bind_eq_ok h
  obtain rfl : statements = read := Except.ok.inj (hstatements.symm.trans hread)
  obtain ⟨last, hload, h⟩ := exists_of_bind_eq_ok h
  exact ⟨last, hload, Except.ok.inj h⟩

/-- A restriction is an axiom of its subject from then on. -/
theorem mem_axiomsOf_of_addRestriction (hs : s.IsGrounded) (h : s.addRestriction t = .ok s') :
    ∃ subject r, s.world.restriction? t = some (subject, r) ∧
      r.toExpression ∈ s'.world.axiomsOf subject := by
  obtain ⟨subject, r, hread, -, hsubject⟩ := addRestriction_eq_ok h
  refine ⟨subject, r, hread, ?_⟩
  have hhas : ∀ x ∈ subject.references, s.world.Has x := by
    simp only [restriction?, Option.bind_eq_bind, Option.bind_eq_some_iff] at hread
    obtain ⟨name, -, body, -, _, hlookup, _, -, heq⟩ := hread
    cases heq
    exact fun x hx => hs.world.has_of_knows (.inr (.inl (offers_of_lookup? hlookup hx)))
  rcases hsubject with ⟨i, rfl, rfl⟩ | ⟨c, rfl, rfl⟩
  · obtain ⟨d, hd⟩ := has_individual_iff.mp (hhas (.individual i) (List.mem_singleton_self _))
    have hd : s.world.individuals[i.index]? = some d := hd
    simp [axiomsOf, getIndividual, individual?, addIndividualAxiom, modifyIndividual,
      Array.getElem?_modify, hd]
  · obtain ⟨d, hd⟩ := has_class_iff.mp (hhas (.class c) (List.mem_singleton_self _))
    have hd : s.world.classes[c.index]? = some d := hd
    simp [axiomsOf, getClass, class?, addClassAxiom, modifyClass, Array.getElem?_modify, hd]

/-- A list of statements that passes does so up to a statement, with it, and behind it. -/
theorem exists_of_load_append_cons {before after : List (String × Tree)} {keyword : String}
    (h : s.load (before ++ (keyword, t) :: after) = .ok s') :
    ∃ s₁ s₂, s.load before = .ok s₁ ∧ s₁.statement keyword t = .ok s₂ ∧
      s₂.load after = .ok s' := by
  rw [load, List.foldlM_append] at h
  obtain ⟨s₁, hbefore, h⟩ := exists_of_bind_eq_ok h
  rw [List.foldlM_cons] at h
  obtain ⟨s₂, hstatement, hafter⟩ := exists_of_bind_eq_ok h
  exact ⟨s₁, s₂, hbefore, hstatement, hafter⟩

/-- Statements that pass are a sequence of steps, whatever names their entries come with. -/
theorem exists_leadsTo_of_load {statements : List (String × Tree)}
    (h : s.load statements = .ok s') : ∃ names, s.LeadsTo names s' :=
  ⟨statements.flatMap fun statement => statement.2.relationNames,
    leadsTo_load (fun _ _ hmem _ _ hrow => List.mem_flatMap.mpr ⟨_, hmem, hrow⟩) h⟩

end LoadSession

namespace World

variable {settings : LoadSettings} {folder : Folder} {base : String} {document : Tree}
  {before after : List (String × Tree)} {body : Tree} {w : World}

/-- The subject and the restriction of a statement are read with what stands before it, and the
restriction is an axiom in the end. -/
theorem exists_mem_axiomsOf_of_load (h : load settings folder base document = .ok w)
    (hstatements : Shape.statements document =
      .ok (before ++ (Statement.restriction.keyword, body) :: after)) :
    ∃ s subject r, (LoadSession.start settings folder base
        (before ++ (Statement.restriction.keyword, body) :: after)).load before = .ok s ∧
      s.world.restriction? body = some (subject, r) ∧ r.toExpression ∈ w.axiomsOf subject := by
  obtain ⟨last, hload, rfl⟩ := LoadSession.exists_load_start h hstatements
  obtain ⟨s, s₂, hbefore, hstatement, hafter⟩ := LoadSession.exists_of_load_append_cons hload
  obtain ⟨names, hsteps⟩ := LoadSession.exists_leadsTo_of_load hbefore
  obtain ⟨names', hsteps'⟩ := LoadSession.exists_leadsTo_of_load hafter
  have hgrounded : s.IsGrounded := hsteps.isGrounded (LoadSession.isGrounded_new _ _ _ _)
  have hperform := LoadSession.statement_keyword_eq_ok_iff.mp hstatement
  obtain ⟨subject, r, hr, hmem⟩ := LoadSession.mem_axiomsOf_of_addRestriction hgrounded hperform
  exact ⟨s, subject, r, hbefore, hr, hsteps'.isExtendedBy.mem_axiomsOf hmem⟩

/-- **The graph of a document states each of its restrictions, but those on imported classes.**  The
subject and the restriction are read with what stands before the statement.  Of the superclasses of
an imported class the graph says nothing, unless another entity has the same IRI. -/
theorem states_restriction (h : load settings folder base document = .ok w)
    (hstatements : Shape.statements document =
      .ok (before ++ (Statement.restriction.keyword, body) :: after)) (inferred : Bool) :
    ∃ s subject r, (LoadSession.start settings folder base
        (before ++ (Statement.restriction.keyword, body) :: after)).load before = .ok s ∧
      s.world.restriction? body = some (subject, r) ∧
      (¬w.IsImported subject → w.States (w.toGraph inferred) r.toExpression subject) ∧
      (w.IsImported subject → w.KeepsApart terms →
        ¬w.States (w.toGraph inferred) r.toExpression subject) := by
  obtain ⟨s, subject, r, hbefore, hr, hmem⟩ := exists_mem_axiomsOf_of_load h hstatements
  refine ⟨s, subject, r, hbefore, hr, fun himported => ?_, fun himported hw => ?_⟩
  · exact states_of_mem_axiomsOf hmem (fun heq => by cases heq) himported
  · exact not_states_of_isImported hw hmem himported

/-! ### A harbour -/

/-- A file with a class of agents. -/
def agentsFile : String :=
  "<urn:agents#Agent> a <http://www.w3.org/2002/07/owl#Class> ."

/-- Robots are agents, and agents steer robots. -/
def harbourStatements : List (String × Tree) := [
  ("iri", .string "http://example.org/harbour#"),
  ("import", .object [("iri", .string "urn:agents"), ("localpath", .string "agents.ttl"),
    ("ns", .string "ag")]),
  ("owl_class", .object [("Robot", .object [("SubClassOf", .string "ag:Agent")])]),
  ("owl_object_property", .object [("steers", .object [
    ("Domain", .string "ag:Agent"), ("Range", .string "Robot")])]),
  ("owl_individual", .object [("tug", .object [("types", .sequence [.string "Robot"])])])]

/-- The tug is steered by someone who steers the tug. -/
def tugIsSteered : Tree :=
  .object [("Subject", .string "tug"), ("Body", .object [("Inverse", .object [("steers", .object [
    ("some", .object [("steers", .object [("value", .string "tug")])])])])])]

/-- Agents steer some robot. -/
def agentsSteer : Tree :=
  .object [("Subject", .string "ag:Agent"),
    ("Body", .object [("steers", .object [("some", .string "Robot")])])]

/-- The statements of the document. -/
def harbourDocumentStatements : List (String × Tree) :=
  harbourStatements ++ (Statement.restriction.keyword, tugIsSteered)
    :: [(Statement.restriction.keyword, agentsSteer)]

/-- The document of these statements. -/
def harbourDocument : Tree :=
  .sequence (harbourDocumentStatements.map fun (keyword, body) => .object [(keyword, body)])

/-- The folder with the imported file. -/
def harbourFolder : Folder :=
  .ofList [("agents.ttl", agentsFile)]

/-- The ontology of the document. -/
def harbour : World :=
  (load {} harbourFolder "" harbourDocument).toOption.getD default

theorem load_harbourDocument : load {} harbourFolder "" harbourDocument = .ok harbour :=
  eq_ok_of_isSome (by decide +kernel)

theorem statements_harbourDocument :
    Shape.statements harbourDocument = .ok harbourDocumentStatements :=
  rfl

/-- The restriction of the tug is in the graph, in both of its layers. -/
theorem states_restriction_harbour :
    load {} harbourFolder "" harbourDocument = .ok harbour ∧
    Shape.statements harbourDocument = .ok harbourDocumentStatements ∧
    harbour.States (harbour.toGraph true)
      (.restriction (.inverse ⟨0⟩) .some
        (.expression (.restriction (.named ⟨0⟩) .value (.individual ⟨0⟩))))
      (.individual ⟨0⟩) := by
  obtain ⟨s, subject, r, hs, hr, hstates, -⟩ :=
    states_restriction load_harbourDocument statements_harbourDocument true
  have hread : ((LoadSession.start {} harbourFolder "" harbourDocumentStatements).load
      harbourStatements).toOption.bind (·.world.restriction? tugIsSteered) =
        some (.individual ⟨0⟩, ⟨.inverse ⟨0⟩, .some,
          .expression (.restriction (.named ⟨0⟩) .value (.individual ⟨0⟩))⟩) := by
    decide +kernel
  rw [harbourDocumentStatements, hs, Except.toOption, Option.bind_some, hr] at hread
  cases hread
  exact ⟨load_harbourDocument, statements_harbourDocument, hstates id⟩

/-- The restriction of agents is an axiom of the imported class, and the graph does not have it. -/
theorem not_states_agents :
    load {} harbourFolder "" harbourDocument = .ok harbour ∧
    Shape.statements harbourDocument = .ok harbourDocumentStatements ∧
    (harbour.restriction? agentsSteer =
        some (.class ⟨0⟩, ⟨.named ⟨0⟩, .some, .expression (.named ⟨1⟩)⟩) ∧
      .restriction (.named ⟨0⟩) .some (.expression (.named ⟨1⟩)) ∈ harbour.axiomsOf (.class ⟨0⟩) ∧
      harbour.classIri ⟨0⟩ = "urn:agents#Agent") ∧
    ∀ inferred, ¬harbour.States (harbour.toGraph inferred)
      (.restriction (.named ⟨0⟩) .some (.expression (.named ⟨1⟩))) (.class ⟨0⟩) := by
  have hread : harbour.restriction? agentsSteer =
        some (.class ⟨0⟩, ⟨.named ⟨0⟩, .some, .expression (.named ⟨1⟩)⟩) ∧
      .restriction (.named ⟨0⟩) .some (.expression (.named ⟨1⟩)) ∈ harbour.axiomsOf (.class ⟨0⟩) ∧
      harbour.classIri ⟨0⟩ = "urn:agents#Agent" := by
    decide +kernel
  have hkept : harbour.KeepsApart terms ∧ (harbour.getClass ⟨0⟩).imported = true := by
    decide +kernel
  exact ⟨load_harbourDocument, statements_harbourDocument, hread,
    fun _ => not_states_of_isImported hkept.1 hread.2.1 hkept.2⟩

end World

end Ontology
