import Ontology.Proofs.Statements

/-!
# Keywords of declarations

Every key in the body of a class or a property has to be a keyword.  Of the body of an individual,
nothing but the types is read: whatever other keys say is passed over without notice.

## Main definitions

* `Tree.IsKeyword` — a key has a reading.
* `Statement.bodies` — the bodies of what a statement declares.
* `Tree.withTypesOnly` — a document without the parts that are not read.

## Main results

* `World.isKeyword_of_readKeywords` — a body that can be read holds keywords only.
* `World.load_withTypesOnly_eq_ok_iff` — what individuals say besides their types is not read.
* `World.load_keywords` — **keys of classes and properties are keywords, and other keys of
  individuals are passed over.**
-/

namespace Ontology

/-! ### Bodies -/

namespace Tree

/-- A key has a reading. -/
def IsKeyword : Tree → Prop
  | .string keyword => (Reading.ofKeyword? keyword).isSome
  | _ => False

end Tree

/-- The bodies of what a statement declares; individuals that are declared together have one body,
which comes with their names. -/
def Statement.bodies (kind : Statement) (t : Tree) : List Tree :=
  match kind with
  | .individual | .oneClass | .objectProperty | .dataProperty | .inverseProperty =>
    t.entries.map Prod.snd
  | .individuals => [.mapping (Tree.eraseKey "names" t.entries)]
  | .classes => (t.items?.getD []).flatMap fun item => item.entries.map Prod.snd
  | _ => []

/-! ### Bodies that are read -/

namespace World

variable {w : World}

theorem isKeyword_of_applyKeyword {keyword : String} {t : Tree} {n : Node}
    (h : w.applyKeyword keyword t = .ok n) : Tree.IsKeyword (.string keyword) := by
  rw [Tree.IsKeyword, Option.isSome_iff_ne_none]
  intro hnone
  cases t <;> simp [applyKeyword, scalarBelow, unknownKeyword, hnone] at h

/-- A body that can be read holds keywords only. -/
theorem isKeyword_of_readKeywords {entries : List (Tree × Tree)} {body : List (String × Node)}
    (h : w.readKeywords entries = .ok body) : ∀ entry ∈ entries, entry.1.IsKeyword := by
  obtain ⟨named, hnamed, h⟩ := exists_of_bind_eq_ok h
  intro entry hentry
  obtain ⟨⟨keyword, t⟩, hmem, hread⟩ := exists_of_forall₂_left (mapM_eq_ok hnamed) hentry
  obtain ⟨row, -, happly⟩ := exists_of_forall₂_left (mapM_eq_ok h) hmem
  have hkeyword : Tree.IsKeyword (.string keyword) := by
    dsimp only at happly
    split at happly
    · next n hn => exact isKeyword_of_applyKeyword hn
    · split at happly <;> cases happly
  obtain ⟨text, htext, hread⟩ := exists_of_bind_eq_ok hread
  obtain ⟨rfl, -⟩ := Prod.mk.inj (Except.ok.inj hread)
  obtain ⟨key, value⟩ := entry
  cases key with
  | string key =>
    obtain rfl : key = text := Except.ok.inj htext
    exact hkeyword
  | _ => cases htext

end World

namespace LoadSession

variable {s s' : LoadSession} {t : Tree}

/-- What is declared with a body that can be read has a body that holds keywords only. -/
theorem Declares.isKeyword {inner : Tree} {name : String} {named : List (String × Node)}
    (h : s.Declares t name inner named) :
    ∀ body ∈ t.entries.map Prod.snd, ∀ entry ∈ body.entries, entry.1.IsKeyword := by
  obtain ⟨rfl, hread⟩ := h
  intro body hbody
  obtain rfl : body = inner := List.mem_singleton.mp hbody
  exact World.isKeyword_of_readKeywords hread

theorem isKeyword_of_declareClass (h : s.declareClass t = .ok s') :
    ∀ body ∈ t.entries.map Prod.snd, ∀ entry ∈ body.entries, entry.1.IsKeyword := by
  obtain ⟨c, inner, body, id, s₁, s₂, hdeclares, -⟩ := declareClass_eq_ok h
  exact hdeclares.isKeyword

theorem isKeyword_of_declareProperty {kind : PropertyKind} (h : s.declareProperty kind t = .ok s') :
    ∀ body ∈ t.entries.map Prod.snd, ∀ entry ∈ body.entries, entry.1.IsKeyword := by
  obtain ⟨d, inner, body, p, s₁, hdeclares, -⟩ := declareProperty_eq_ok h
  exact hdeclares.isKeyword

theorem isKeyword_of_declareInverse (h : s.declareInverse t = .ok s') :
    ∀ body ∈ t.entries.map Prod.snd, ∀ entry ∈ body.entries, entry.1.IsKeyword := by
  obtain ⟨d, inner, body, p, s₁, hdeclares, -⟩ := declareInverse_eq_ok h
  exact hdeclares.isKeyword

/-- The bodies of classes and properties hold keywords only. -/
theorem isKeyword_of_perform {kind : Statement} (hone : kind ≠ .individual)
    (hseveral : kind ≠ .individuals) (h : s.perform kind t = .ok s') :
    ∀ body ∈ kind.bodies t, ∀ entry ∈ body.entries, entry.1.IsKeyword := by
  cases kind with
  | individual => exact absurd rfl hone
  | individuals => exact absurd rfl hseveral
  | oneClass => exact isKeyword_of_declareClass h
  | objectProperty | dataProperty => exact isKeyword_of_declareProperty h
  | inverseProperty => exact isKeyword_of_declareInverse h
  | classes =>
    intro body hbody
    obtain ⟨item, hitem, hbody⟩ := List.mem_flatMap.mp hbody
    change s.declareClasses t = .ok s' at h
    rw [declareClasses] at h
    split at h
    · next items hitems =>
      rw [hitems] at hitem
      obtain ⟨s₁, s₂, hclass⟩ := exists_of_foldlM_eq_ok h hitem
      exact isKeyword_of_declareClass hclass body hbody
    · cases h
  | _ => exact fun _ hbody => absurd hbody List.not_mem_nil

end LoadSession

/-! ### What is not read -/

namespace Tree

/-- The entry of a body that gives types. -/
def typesEntry (entries : List (Tree × Tree)) : List (Tree × Tree) :=
  (lookup? entries "types").toList.map fun types => (.string "types", types)

/-- The body of an individual without the parts that are not read. -/
def typesOnly : Tree → Tree
  | .mapping entries => .mapping (typesEntry entries)
  | t => t

/-- A statement of several individuals without the parts that are not read. -/
def namesAndTypes (entries : List (Tree × Tree)) : List (Tree × Tree) :=
  (lookup? entries "names").toList.map (fun names => (.string "names", names)) ++
    typesEntry (eraseKey "names" entries)

theorem lookup?_typesEntry (entries : List (Tree × Tree)) :
    lookup? (typesEntry entries) "types" = lookup? entries "types" := by
  rw [typesEntry]
  cases lookup? entries "types" with
  | none => rfl
  | some types => simp [lookup?]

theorem lookup?_namesAndTypes (entries : List (Tree × Tree)) :
    lookup? (namesAndTypes entries) "names" = lookup? entries "names" := by
  rw [namesAndTypes, typesEntry]
  cases lookup? entries "names" with
  | some names => simp [lookup?]
  | none => cases lookup? (eraseKey "names" entries) "types" <;> simp [lookup?]

theorem eraseKey_namesAndTypes {entries : List (Tree × Tree)} {names : Tree}
    (h : lookup? entries "names" = some names) :
    eraseKey "names" (namesAndTypes entries) = typesEntry (eraseKey "names" entries) := by
  rw [namesAndTypes, h, typesEntry]
  cases lookup? (eraseKey "names" entries) "types" <;> simp [eraseKey]

end Tree

/-- The body of a statement without the parts that are not read. -/
def Statement.withTypesOnly (kind : Statement) (t : Tree) : Tree :=
  match kind, t with
  | .individual, .mapping entries =>
    .mapping (entries.map fun (name, body) => (name, body.typesOnly))
  | .individuals, .mapping entries => .mapping (Tree.namesAndTypes entries)
  | _, t => t

namespace LoadSession

variable {s s' : LoadSession}

/-- Of the body of an individual, only the types are read. -/
theorem individualOf_typesOnly (s : LoadSession) (name : String) (body : Tree) :
    s.individualOf name body.typesOnly = s.individualOf name body := by
  cases body with
  | mapping entries =>
    simp only [individualOf, Tree.typesOnly, Shape.declarationBody, Shape.asMapping, bind,
      Except.bind, Tree.lookup?_typesEntry]
  | _ => rfl

theorem declareIndividual_eq_ok_iff {t : Tree} : s.declareIndividual t = .ok s' ↔
    ∃ name body, t = .mapping [(.string name, body)] ∧ s.individualOf name body = .ok s' := by
  rw [declareIndividual, bind_eq_ok_iff, Prod.exists]
  simp only [Shape.single_eq_ok_iff]

/-- Individuals are declared alike with and without further keys in their bodies. -/
theorem declareIndividual_withTypesOnly (t : Tree) :
    s.declareIndividual (Statement.individual.withTypesOnly t) = .ok s' ↔
      s.declareIndividual t = .ok s' := by
  cases t with
  | mapping entries =>
    rw [declareIndividual_eq_ok_iff, declareIndividual_eq_ok_iff, Statement.withTypesOnly]
    constructor
    · rintro ⟨name, body, hentries, h⟩
      obtain ⟨⟨key, body⟩, rfl, hentry⟩ :=
        List.map_eq_singleton_iff.mp (Tree.mapping.inj hentries)
      obtain ⟨rfl, rfl⟩ := Prod.mk.inj hentry
      exact ⟨name, body, rfl, individualOf_typesOnly s name body ▸ h⟩
    · rintro ⟨name, body, hentries, h⟩
      rw [Tree.mapping.inj hentries]
      exact ⟨name, body.typesOnly, rfl, (individualOf_typesOnly s name body).trans h⟩
  | _ => rfl

theorem declareIndividuals_withTypesOnly (t : Tree) :
    s.declareIndividuals (Statement.individuals.withTypesOnly t) = .ok s' ↔
      s.declareIndividuals t = .ok s' := by
  cases t with
  | mapping entries =>
    simp only [declareIndividuals, Statement.withTypesOnly, bind_eq_ok_iff, Shape.asMapping,
      Except.ok.injEq, exists_eq_left', Shape.required, Tree.lookup?_namesAndTypes]
    cases hnames : Tree.lookup? entries "names" with
    | none => simp
    | some names =>
      have hbody : Tree.mapping (Tree.typesEntry (Tree.eraseKey "names" entries)) =
        (Tree.mapping (Tree.eraseKey "names" entries)).typesOnly := rfl
      simp only [Tree.eraseKey_namesAndTypes hnames, hbody, individualOf_typesOnly]
      rfl
  | _ => rfl

theorem perform_withTypesOnly (kind : Statement) (t : Tree) :
    s.perform kind (kind.withTypesOnly t) = .ok s' ↔ s.perform kind t = .ok s' := by
  cases kind with
  | individual => exact declareIndividual_withTypesOnly t
  | individuals => exact declareIndividuals_withTypesOnly t
  | _ => rfl

/-- A statement without the parts that are not read. -/
def statementWithTypesOnly (statement : String × Tree) : String × Tree :=
  (statement.1, (Statement.ofKeyword? statement.1).elim statement.2 fun kind =>
    kind.withTypesOnly statement.2)

theorem statement_withTypesOnly (statement : String × Tree) :
    s.statement statement.1 (statementWithTypesOnly statement).2 = .ok s' ↔
      s.statement statement.1 statement.2 = .ok s' := by
  rw [statement_eq_ok_iff, statement_eq_ok_iff]
  refine or_congr_right (exists_congr fun kind => and_congr_right fun hkind => ?_)
  rw [statementWithTypesOnly, hkind]
  exact perform_withTypesOnly kind _

theorem load_map_withTypesOnly (statements : List (String × Tree)) :
    s.load (statements.map statementWithTypesOnly) = .ok s' ↔ s.load statements = .ok s' := by
  simp only [load]
  induction statements generalizing s with
  | nil => rfl
  | cons statement rest ih =>
    simp only [List.map_cons, List.foldlM_cons, bind_eq_ok_iff, ih]
    exact exists_congr fun s₁ => and_congr_left fun _ => statement_withTypesOnly statement

end LoadSession

/-- A document without the parts that are not read. -/
def Tree.withTypesOnly : Tree → Tree
  | .sequence items => .sequence <| items.map fun item =>
    match Shape.single item with
    | .ok statement => .object [LoadSession.statementWithTypesOnly statement]
    | .error _ => item
  | t => t

theorem Shape.statements_withTypesOnly (document : Tree) :
    statements document.withTypesOnly =
      (statements document).map (List.map LoadSession.statementWithTypesOnly) := by
  cases document with
  | sequence items =>
    rw [Tree.withTypesOnly, statements, statements, ← mapM_map_ok, List.mapM_map]
    refine congrArg (List.mapM · items) (funext fun item => ?_)
    cases hitem : single item with
    | error e => simp [hitem, Except.map]
    | ok statement =>
      rw [Function.comp_apply]
      simp only [hitem]
      rfl
  | _ => rfl

namespace World

variable {settings : LoadSettings} {folder : Folder} {base : String} {document : Tree} {w : World}

/-- A statement that gives the IRI is read as a whole. -/
theorem baseIri?_withTypesOnly (statements : List (String × Tree)) :
    Shape.baseIri? (statements.map LoadSession.statementWithTypesOnly) =
      Shape.baseIri? statements := by
  rw [Shape.baseIri?, Shape.baseIri?, ← List.map_reverse]
  induction statements.reverse with
  | nil => rfl
  | cons statement rest ih =>
    obtain ⟨keyword, t⟩ := statement
    rw [List.map_cons]
    by_cases hiri : "iri" = keyword
    · subst hiri
      rfl
    · simpa [List.lookup_cons, LoadSession.statementWithTypesOnly, beq_false_of_ne hiri] using ih

/-- What individuals say besides their types has no effect. -/
theorem load_withTypesOnly_eq_ok_iff : load settings folder base document.withTypesOnly = .ok w ↔
    load settings folder base document = .ok w := by
  rw [load, load, Shape.statements_withTypesOnly]
  cases Shape.statements document with
  | error e => rfl
  | ok statements =>
    simp only [Except.map, bind_eq_ok_iff, Except.ok.injEq, exists_eq_left',
      baseIri?_withTypesOnly, LoadSession.load_map_withTypesOnly]

/-- The bodies of classes and properties in a document that loads hold keywords only. -/
theorem isKeyword_of_load {statements : List (String × Tree)} {keyword : String} {t : Tree}
    {kind : Statement} (h : load settings folder base document = .ok w)
    (hstatements : Shape.statements document = .ok statements)
    (hmem : (keyword, t) ∈ statements) (hkind : Statement.ofKeyword? keyword = some kind)
    (hone : kind ≠ .individual) (hseveral : kind ≠ .individuals) :
    ∀ body ∈ kind.bodies t, ∀ entry ∈ body.entries, entry.1.IsKeyword := by
  obtain ⟨again, hagain, h⟩ := exists_of_bind_eq_ok h
  obtain rfl : statements = again := Except.ok.inj (hstatements.symm.trans hagain)
  obtain ⟨s, hs, -⟩ := exists_of_bind_eq_ok h
  obtain ⟨s₁, s₂, hstatement⟩ := exists_of_foldlM_eq_ok hs hmem
  rcases LoadSession.statement_eq_ok_iff.mp hstatement with ⟨rfl, -⟩ | ⟨kind', hkind', hperform⟩
  · cases hkind
  · obtain rfl : kind = kind' := Option.some.inj (hkind.symm.trans hkind')
    exact LoadSession.isKeyword_of_perform hone hseveral hperform

/-- **Keys in the bodies of classes and properties are keywords, and keys in the bodies of
individuals are passed over,** apart from the types. -/
theorem load_keywords (settings : LoadSettings) (folder : Folder) (base : String)
    (document : Tree) :
    (∀ w statements keyword t kind, load settings folder base document = .ok w →
      Shape.statements document = .ok statements → (keyword, t) ∈ statements →
      Statement.ofKeyword? keyword = some kind → kind ≠ .individual → kind ≠ .individuals →
      ∀ body ∈ kind.bodies t, ∀ entry ∈ body.entries, entry.1.IsKeyword) ∧
    ∀ w, load settings folder base document.withTypesOnly = .ok w ↔
      load settings folder base document = .ok w :=
  ⟨fun _ _ _ _ _ h hstatements hmem hkind hone hseveral =>
    isKeyword_of_load h hstatements hmem hkind hone hseveral,
    fun _ => load_withTypesOnly_eq_ok_iff⟩

/-! ### A misspelt keyword -/

/-- The body of Kim, who is a runner.  The keyword of the second entry is missing a letter. -/
def kimBody : Tree :=
  .object [("types", .sequence [.string "Runner"]), ("annotation", .string "Runs at night.")]

/-- Runners, and Kim who is one. -/
def runnersDocument : Tree :=
  .sequence [
    .object [("owl_class", .object [("Runner", .object [("annotations", .string "Somebody.")])])],
    .object [("owl_individual", .object [("kim", kimBody)])]]

/-- The ontology of the document. -/
def runners : World :=
  (load {} {} "" runnersDocument).toOption.getD default

theorem load_runnersDocument : load {} {} "" runnersDocument = .ok runners :=
  eq_ok_of_isSome (by decide +kernel)

theorem load_keywords_runners :
    load {} {} "" runnersDocument.withTypesOnly = .ok runners ∧
    Tree.IsKeyword (.string "annotations") ∧
    (runners.individualNamed? "kim").isSome := by
  obtain ⟨hkeywords, htypes⟩ := load_keywords {} {} "" runnersDocument
  refine ⟨(htypes runners).mpr load_runnersDocument, ?_, by decide +kernel⟩
  exact hkeywords runners _ "owl_class" _ .oneClass load_runnersDocument rfl
    List.mem_cons_self (by decide) (by decide) (by decide) _ List.mem_cons_self
    (.string "annotations", .string "Somebody.") List.mem_cons_self

/-- A misspelt keyword in the body of an individual goes unnoticed. -/
theorem unread_keyword_runners :
    load {} {} "" runnersDocument = .ok runners ∧
    (∃ statements, Shape.statements runnersDocument = .ok statements ∧
      ("owl_individual", Tree.object [("kim", kimBody)]) ∈ statements) ∧
    kimBody ∈ Statement.individual.bodies (.object [("kim", kimBody)]) ∧
    (.string "annotation", .string "Runs at night.") ∈ kimBody.entries ∧
    ¬Tree.IsKeyword (.string "annotation") := by
  refine ⟨load_runnersDocument, ⟨_, rfl, ?_⟩, List.mem_cons_self, ?_, by
    rw [Tree.IsKeyword]; decide⟩
  · exact List.mem_cons_of_mem _ List.mem_cons_self
  · exact List.mem_cons_of_mem _ List.mem_cons_self

end World

end Ontology
