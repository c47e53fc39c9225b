import Ontology.Proofs.StatedValues
import Ontology.World.Inference

/-!
# Facts as they are written

Facts stand in the bodies of properties and in statements of their own.  Each of them names a
property and a subject and gives a value or a list of values.  Names are looked up before the
statement is processed, so a property cannot be a value in its own declaration.

## Main definitions

* `Statement.writtenFacts` — the facts of a statement, with lists of values taken apart.
* `World.readFact?` — the fact that is meant.
* `World.stateFacts` — states facts one after the other.

## Main results

* `LoadSession.states_applyFacts`, `LoadSession.states_propertyFacts` — **the facts that are written
  are those that are stated.**
-/

namespace Ontology

/-! ### Facts in documents -/

/-- A fact as it is written. -/
structure WrittenFact where
  property : String
  subject : String
  value : Tree
  deriving Repr, Inhabited

namespace Tree

/-- The entries of a mapping whose keys are strings. -/
def namedEntries (t : Tree) : List (String × Tree) :=
  t.entries.filterMap fun
    | (.string name, value) => some (name, value)
    | _ => none

/-- The facts about a property that a mapping from subjects to values gives. -/
def factsOf (property : String) (t : Tree) : List WrittenFact :=
  t.namedEntries.flatMap fun (subject, value) =>
    (Shape.listOf value).map fun value => ⟨property, subject, value⟩

/-- The facts in the body of a property. -/
def factsBelow (property : String) (body : Tree) : List WrittenFact :=
  match lookup? body.entries "Facts" with
  | some (.sequence items) => items.flatMap (factsOf property)
  | _ => []

end Tree

/-- The facts of a statement, in the order in which they are written. -/
def Statement.writtenFacts (kind : Statement) (t : Tree) : List WrittenFact :=
  match kind with
  | .objectProperty | .dataProperty | .inverseProperty | .propertyFacts =>
    t.namedEntries.flatMap fun (property, body) => body.factsBelow property
  | _ => []

namespace World

/-- The fact that is meant by one that is written in a statement.  The names of subjects and values
are known before the statement, the property is known after it. -/
def readFact? (before after : World) (f : WrittenFact) : Option Fact := do
  let property ← after.propertyNamed? f.property
  let subject ← before.individualNamed? f.subject
  let term ← (before.resolve true f.value).toOption
  let value ← (after.valueOf property term).toOption
  return ⟨subject, property, value⟩

/-! ### Stating facts -/

/-- How a fact is stated: a value of a functional property replaces the one before. -/
def writeOf (w : World) (f : Fact) : Write :=
  if (w.getProperty f.property).characteristics.functional then
    .assign f.subject f.property f.value
  else .append f.subject f.property f.value

@[simp] theorem subject_writeOf (w : World) (f : Fact) : (w.writeOf f).subject = f.subject := by
  rw [writeOf]
  split <;> rfl

@[simp] theorem property_writeOf (w : World) (f : Fact) : (w.writeOf f).property = f.property := by
  rw [writeOf]
  split <;> rfl

/-- States a fact. -/
def stateFact (w : World) (f : Fact) : World :=
  w.write (w.writeOf f)

/-- States facts one after the other. -/
def stateFacts (w : World) (facts : List Fact) : World :=
  facts.foldl stateFact w

/-- Ontologies that differ in what they say of individuals at most. -/
def SameVocabulary (w w' : World) : Prop :=
  ∃ individuals, w' = { w with individuals }

namespace SameVocabulary

variable {w w' w'' : World}

protected theorem refl (w : World) : w.SameVocabulary w :=
  ⟨w.individuals, rfl⟩

protected theorem trans (h : w.SameVocabulary w') (h' : w'.SameVocabulary w'') :
    w.SameVocabulary w'' := by
  obtain ⟨_, rfl⟩ := h
  obtain ⟨individuals, rfl⟩ := h'
  exact ⟨individuals, rfl⟩

protected theorem symm (h : w.SameVocabulary w') : w'.SameVocabulary w := by
  obtain ⟨_, rfl⟩ := h
  exact ⟨w.individuals, rfl⟩

theorem propertyNamed? (h : w.SameVocabulary w') (name : String) :
    w'.propertyNamed? name = w.propertyNamed? name := by
  obtain ⟨_, rfl⟩ := h
  rfl

theorem valueOf (h : w.SameVocabulary w') : w'.valueOf = w.valueOf := by
  obtain ⟨_, rfl⟩ := h
  rfl

/-- What is meant by a fact depends on names and properties only. -/
theorem readFact? {after after' : World} (h : w.SameVocabulary w')
    (h' : after.SameVocabulary after') :
    w'.readFact? after' = w.readFact? after := by
  obtain ⟨_, rfl⟩ := h
  obtain ⟨_, rfl⟩ := h'
  rfl

end SameVocabulary

theorem sameVocabulary_stateFacts (w : World) (facts : List Fact) :
    w.SameVocabulary (w.stateFacts facts) := by
  induction facts generalizing w with
  | nil => exact .refl w
  | cons f rest ih =>
    have hfirst : w.SameVocabulary (w.stateFact f) := by
      rw [stateFact, write_eq]
      exact ⟨_, rfl⟩
    exact hfirst.trans (ih _)

/-- A pair that is read in a body comes from an entry with a string as its key. -/
theorem namedEntries_of_stringEntries {entries : List (Tree × Tree)} {named : List (String × Tree)}
    (h : Shape.stringEntries entries = .ok named) :
    (Tree.mapping entries).namedEntries = named := by
  rw [Shape.stringEntries_eq_ok_iff.mp h, Tree.namedEntries, Tree.entries, List.filterMap_map]
  exact List.filterMap_some

theorem lookup?_eq_lookup_namedEntries (entries : List (Tree × Tree)) (key : String) :
    Tree.lookup? entries key = (Tree.mapping entries).namedEntries.lookup key := by
  induction entries with
  | nil => rfl
  | cons entry rest ih =>
    obtain ⟨name, value⟩ := entry
    rw [Tree.lookup?, List.findSome?_cons, ← Tree.lookup?, ih]
    cases name with
    | string name =>
      by_cases hkey : name = key
      · subst hkey
        simp [Tree.namedEntries, Tree.entries]
      · simp [Tree.namedEntries, Tree.entries, hkey, List.lookup_cons,
          beq_false_of_ne (Ne.symm hkey)]
    | _ => rfl

/-- A keyword of a body that is read comes from an entry of it. -/
theorem lookup_of_readKeywords {w : World} {entries : List (Tree × Tree)}
    {body : List (String × Node)} (h : w.readKeywords entries = .ok body) (keyword : String) :
    (Tree.lookup? entries keyword = none ∧ body.lookup keyword = none) ∨
      ∃ t n, Tree.lookup? entries keyword = some t ∧ body.lookup keyword = some n ∧
        w.applyKeyword keyword t = .ok n := by
  obtain ⟨named, hnamed, hrows⟩ := exists_of_bind_eq_ok h
  rw [lookup?_eq_lookup_namedEntries, namedEntries_of_stringEntries hnamed]
  have hread : List.Forall₂ (fun row read => read.1 = row.1 ∧
      w.applyKeyword row.1 row.2 = .ok read.2) named body := by
    refine (mapM_eq_ok hrows).imp fun row read hread => ?_
    dsimp only at hread
    split at hread
    · next n hn =>
      rw [← Except.ok.inj hread]
      exact ⟨rfl, hn⟩
    · split at hread <;> cases hread
  clear h hnamed hrows
  induction hread with
  | nil => exact .inl ⟨rfl, rfl⟩
  | @cons row read _ _ hread _ ih =>
    obtain ⟨key, t⟩ := row
    obtain ⟨key', n⟩ := read
    obtain ⟨rfl, hn⟩ := hread
    rw [List.lookup_cons, List.lookup_cons]
    by_cases hkey : keyword = key'
    · subst hkey
      simp only [beq_self_eq_true]
      exact .inr ⟨t, n, rfl, rfl, hn⟩
    · simp only [beq_false_of_ne hkey]
      exact ih

/-- The terms of a value are those of a scalar or of the items of a list. -/
theorem forall₂_of_pairValue {w : World} {entries : List (Tree × Tree)} {t : Tree}
    {value : PairValue} (h : w.pairValue entries t = .ok value) :
    List.Forall₂ (fun t term => w.resolve true t = .ok term) (Shape.listOf t) value.terms := by
  cases t with
  | sequence items =>
    obtain ⟨terms, hterms, h⟩ := exists_of_bind_eq_ok h
    rw [← Except.ok.inj h]
    exact mapM_eq_ok hterms
  | string _ | int _ | float _ | bool _ =>
    obtain ⟨term, hterm, h⟩ := exists_of_bind_eq_ok h
    rw [← Except.ok.inj h]
    exact .cons hterm .nil
  | _ => cases h

end World

namespace LoadSession

open World

variable {s s' s₁ s₂ : LoadSession} {before after : World} {p : PropertyId} {property : String}

/-- A run states the facts that are meant by those that are written, and does nothing else. -/
def States (before after : World) (written : List WrittenFact) (s s' : LoadSession) : Prop :=
  ∃ facts, List.Forall₂ (fun f fact => before.readFact? after f = some fact) written facts ∧
    s' = { s with world := s.world.stateFacts facts }

theorem States.append {written more : List WrittenFact} (h : States before after written s s₁)
    (h' : States before after more s₁ s₂) : States before after (written ++ more) s s₂ := by
  obtain ⟨facts, hfacts, rfl⟩ := h
  obtain ⟨further, hfurther, rfl⟩ := h'
  exact ⟨facts ++ further, List.rel_append hfacts hfurther, by
    simp only [stateFacts, List.foldl_append]⟩

/-- Parts that state the facts that are written in them do so together. -/
theorem states_foldlM {τ α : Type} {R : τ → α → Prop} {written : τ → List WrittenFact}
    {f : LoadSession → α → Loading LoadSession} {ts : List τ} {as : List α}
    (hread : List.Forall₂ R ts as)
    (hf : ∀ t a, R t a → ∀ s₁ s₂, s.world.SameVocabulary s₁.world → f s₁ a = .ok s₂ →
      States before after (written t) s₁ s₂)
    (h : as.foldlM f s = .ok s') : States before after (ts.flatMap written) s s' := by
  induction hread generalizing s with
  | nil =>
    obtain rfl : s = s' := Except.ok.inj h
    exact ⟨[], .nil, rfl⟩
  | cons hR _ ih =>
    rw [List.foldlM_cons] at h
    obtain ⟨mid, hmid, h⟩ := exists_of_bind_eq_ok h
    have hfirst := hf _ _ hR s mid (.refl _) hmid
    have hkeep : s.world.SameVocabulary mid.world := by
      obtain ⟨facts, -, rfl⟩ := hfirst
      exact sameVocabulary_stateFacts _ _
    exact hfirst.append (ih (fun t a hR s₁ s₂ hs₁ => hf t a hR s₁ s₂ (hkeep.trans hs₁)) h)

theorem stateFacts_of_not_functional {w : World} {i : IndividualId}
    (h : (w.getProperty p).characteristics.functional = false) (vs : List Value) :
    w.stateFacts (vs.map fun v => ⟨i, p, v⟩) = vs.foldl (fun w v => w.pushFact i p v) w := by
  induction vs generalizing w with
  | nil => rfl
  | cons v rest ih =>
    have hfirst : w.stateFact ⟨i, p, v⟩ = w.pushFact i p v := by
      simp [stateFact, writeOf, h, write]
    rw [List.map_cons, stateFacts, List.foldl_cons, hfirst]
    exact ih h

/-- The values of a pair are stated one after the other. -/
theorem applyFact_eq_ok {i : IndividualId} {value : PairValue}
    (h : s.applyFact p i value = .ok s') : ∃ vs, value.terms.mapM (s.world.valueOf p) = .ok vs ∧
      s' = { s with world := s.world.stateFacts (vs.map fun v => ⟨i, p, v⟩) } := by
  obtain ⟨vs, hvs, h⟩ := exists_of_bind_eq_ok h
  refine ⟨vs, hvs, ?_⟩
  split at h
  · next hfunctional =>
    split at h
    · next _ v _ =>
      rw [← Except.ok.inj h]
      simp [stateFacts, stateFact, writeOf, hfunctional, write]
    · cases h
  · next hfunctional =>
    rw [← Except.ok.inj h, stateFacts_of_not_functional (by simpa using hfunctional)]

/-- What is written in an entry is what is meant by a pair. -/
theorem states_applyFact {entries : List (Tree × Tree)} {subject : String} {t : Tree} {term : Term}
    {value : PairValue} (hp : after.propertyNamed? property = some p)
    (hsame : after.SameVocabulary s.world) (hterm : before.resolveName false subject = .ok term)
    (hvalue : before.pairValue entries t = .ok value)
    (h : (do s.applyFact p (← factSubject term) value) = .ok s') :
    States before after ((Shape.listOf t).map fun value => ⟨property, subject, value⟩) s s' := by
  obtain ⟨i, hi, h⟩ := exists_of_bind_eq_ok h
  obtain ⟨vs, hvs, rfl⟩ := applyFact_eq_ok h
  have hsubject : before.individualNamed? subject = some i := by
    rw [factSubject.eq_def] at hi
    split at hi
    · next j =>
      rw [individualNamed?, lookup?_of_resolveName hterm rfl, Except.ok.inj hi]
    · cases hi
  refine ⟨vs.map fun v => ⟨i, p, v⟩, ?_, rfl⟩
  rw [List.forall₂_map_left_iff, List.forall₂_map_right_iff]
  refine forall₂_comp (fun t term v hterm hv => ?_) (forall₂_of_pairValue hvalue) (mapM_eq_ok hvs)
  rw [hsame.valueOf] at hv
  simp [readFact?, hp, hsubject, hterm, hv, Except.toOption]

/-- What is written in a mapping is what is meant by its pairs. -/
theorem states_applyPairs {entries : List (Tree × Tree)} {n : Node}
    (hp : after.propertyNamed? property = some p) (hsame : after.SameVocabulary s.world)
    (hread : before.pairs entries = .ok n) (h : s.applyPairs p n = .ok s') :
    States before after ((Tree.mapping entries).factsOf property) s s' := by
  obtain ⟨named, hnamed, hread⟩ := exists_of_bind_eq_ok hread
  obtain ⟨pairs, hpairs, hread⟩ := exists_of_bind_eq_ok hread
  rw [← Except.ok.inj hread] at h
  rw [Tree.factsOf, namedEntries_of_stringEntries hnamed]
  refine states_foldlM (mapM_eq_ok hpairs) (fun row pair hpair s₁ s₂ hs₁ h => ?_) h
  obtain ⟨term, hterm, hpair⟩ := exists_of_bind_eq_ok hpair
  obtain ⟨value, hvalue, hpair⟩ := exists_of_bind_eq_ok hpair
  obtain rfl := Except.ok.inj hpair
  exact states_applyFact hp (hsame.trans hs₁) hterm hvalue h

/-- Pairs stand below a keyword in a list only. -/
theorem applyKeyword_ne_pairs {keyword : String} {t : Tree} {entries : List (Term × PairValue)} :
    before.applyKeyword keyword t ≠ .ok (.pairs entries) := by
  have hgather : ∀ (g : Gathering) (ns : List Node), g.gather keyword ns ≠ .pairs entries := by
    intro g ns
    cases g <;> simp [Gathering.gather]
  intro h
  cases t with
  | sequence items =>
    rw [applyKeyword] at h
    split at h
    · cases h
    · cases h
    · obtain ⟨ns, -, h⟩ := exists_of_bind_eq_ok h
      exact hgather _ ns (Except.ok.inj h)
  | mapping items =>
    rw [applyKeyword] at h
    split at h
    · cases h
    · cases h
    · obtain ⟨_, -, h⟩ := exists_of_bind_eq_ok h
      obtain ⟨ns, -, h⟩ := exists_of_bind_eq_ok h
      exact hgather _ ns (Except.ok.inj h)
  | string text =>
    rw [applyKeyword] at h
    split at h
    · cases h
    · cases h
    · split at h
      · obtain ⟨n, -, h⟩ := exists_of_bind_eq_ok h
        exact hgather _ [n] (Except.ok.inj h)
      · next element _ _ _ =>
        cases element with
        | term =>
          obtain ⟨_, -, h⟩ := exists_of_bind_eq_ok h
          cases h
        | raw | pairs => cases h
  | _ =>
    simp only [applyKeyword, scalarBelow] at h
    split at h <;> cases h

theorem applyEntries_ne_pairs {items : List (Tree × Tree)} {ns : List Node}
    (h : before.applyEntries items = .ok ns) :
    ∀ n ∈ ns, ∀ entries : List (Term × PairValue), n ≠ .pairs entries := by
  induction items generalizing ns with
  | nil =>
    rw [← Except.ok.inj h]
    exact fun _ hn => absurd hn List.not_mem_nil
  | cons item rest ih =>
    obtain ⟨key, t⟩ := item
    rw [World.applyEntries] at h
    obtain ⟨keyword, -, h⟩ := exists_of_bind_eq_ok h
    obtain ⟨m, hm, h⟩ := exists_of_bind_eq_ok h
    obtain ⟨ms, hms, h⟩ := exists_of_bind_eq_ok h
    rw [← Except.ok.inj h, List.forall_mem_cons]
    exact ⟨fun entries hm' => applyKeyword_ne_pairs (hm' ▸ hm), ih hms⟩

/-- Only pairs state facts. -/
theorem eq_of_foldlM_applyPairs {ns : List Node}
    (hns : ∀ n ∈ ns, ∀ entries : List (Term × PairValue), n ≠ .pairs entries)
    (h : ns.foldlM (fun s n => s.applyPairs p n) s = .ok s') : s = s' := by
  cases ns with
  | nil => exact Except.ok.inj h
  | cons n rest =>
    rw [List.foldlM_cons] at h
    obtain ⟨mid, hmid, -⟩ := exists_of_bind_eq_ok h
    cases n with
    | pairs entries => exact absurd rfl (hns _ List.mem_cons_self entries)
    | _ => cases hmid

theorem states_nil : States before after [] s s :=
  ⟨[], .nil, rfl⟩

/-- **What is written in the body of a property is what its facts mean.** -/
theorem states_applyFacts {inner : Tree} {body : List (String × Node)}
    (hp : after.propertyNamed? property = some p) (hsame : after.SameVocabulary s.world)
    (hread : before.readKeywords inner.entries = .ok body) (h : s.applyFacts p body = .ok s') :
    States before after (inner.factsBelow property) s s' := by
  rw [applyFacts] at h
  rcases lookup_of_readKeywords hread "Facts" with ⟨ht, hn⟩ | ⟨t, n, ht, hn, happly⟩
  · rw [hn] at h
    rw [Tree.factsBelow, ht, Except.ok.inj h]
    exact states_nil
  rw [hn] at h
  rw [Tree.factsBelow, ht]
  have hreading : Reading.ofKeyword? "Facts" = some (.elements .container .pairs false) := by decide
  cases t with
  | sequence items =>
    rw [applyKeyword, hreading] at happly
    obtain ⟨ns, hns, happly⟩ := exists_of_bind_eq_ok happly
    rw [← Except.ok.inj happly] at h
    refine states_foldlM (mapM_eq_ok hns) (fun item m helement s₁ s₂ hs₁ h => ?_) h
    cases item with
    | mapping entries => exact states_applyPairs hp (hsame.trans hs₁) helement h
    | _ => cases helement
  | mapping items =>
    rw [applyKeyword, hreading] at happly
    obtain ⟨_, -, happly⟩ := exists_of_bind_eq_ok happly
    obtain ⟨ns, hns, happly⟩ := exists_of_bind_eq_ok happly
    rw [← Except.ok.inj happly] at h
    rw [eq_of_foldlM_applyPairs (applyEntries_ne_pairs hns) h]
    exact states_nil
  | string text =>
    rw [applyKeyword, hreading] at happly
    rw [← Except.ok.inj happly] at h
    cases h
  | _ =>
    simp only [applyKeyword, scalarBelow, hreading] at happly
    cases happly

theorem States.sameVocabulary {written : List WrittenFact} (h : States before after written s s') :
    s.world.SameVocabulary s'.world := by
  obtain ⟨facts, -, rfl⟩ := h
  exact sameVocabulary_stateFacts _ _

theorem States.congr {before' after' : World} {written : List WrittenFact}
    (h : States before after written s s') (hbefore : before'.SameVocabulary before)
    (hafter : after.SameVocabulary after') : States before' after' written s s' := by
  obtain ⟨facts, hfacts, hs'⟩ := h
  refine ⟨facts, hfacts.imp fun f fact hread => ?_, hs'⟩
  rw [← hread, hbefore.readFact? hafter.symm]

/-- **What is written in a statement of facts is what it means.** -/
theorem states_propertyFacts {t : Tree} (h : s.propertyFacts t = .ok s') :
    States s.world s'.world (Statement.propertyFacts.writtenFacts t) s s' := by
  suffices hstates : States s.world s.world (Statement.propertyFacts.writtenFacts t) s s' from
    hstates.congr (.refl _) hstates.sameVocabulary
  obtain ⟨entries, hentries, hrun⟩ := exists_of_bind_eq_ok h
  obtain ⟨named, hnamed, hrun⟩ := exists_of_bind_eq_ok hrun
  rw [Shape.asMapping_eq_ok hentries, Statement.writtenFacts, namedEntries_of_stringEntries hnamed]
  refine states_foldlM (List.forall₂_same.mpr fun _ _ => rfl) (fun row _ hrow s₁ s₂ hs₁ h => ?_)
    hrun
  obtain ⟨name, inner⟩ := row
  subst hrow
  obtain ⟨p, hp, h⟩ := exists_of_bind_eq_ok h
  obtain ⟨entries, hentries, h⟩ := exists_of_bind_eq_ok h
  obtain ⟨body, hread, h⟩ := exists_of_bind_eq_ok h
  rw [← Shape.entries_of_declarationBody hentries] at hread
  have hp : s.world.propertyNamed? name = some p :=
    (hs₁.propertyNamed? name).symm.trans (propertyNamed?_of_property hp)
  exact (states_applyFacts hp hs₁ hread h).congr hs₁ (.refl _)

end LoadSession

end Ontology
