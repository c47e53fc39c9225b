import Ontology.Loading.Meaning
import Ontology.Proofs.Lists

/-!
# Names in the body of a statement

The body of a statement is read with the names that have been declared before.  So whatever entity
a part of the body turns out to mean, some name stands for it.

## Main definitions

* `Node.terms` — the terms in a node, at any depth.
* `Term.IsNamed` — an entity in a term is what its name stands for.

## Main results

* `World.isNamed_of_readKeywords` — **every entity in a body has a name.**
* `Node.exists_name_of_toProperty` — a property that a body mentions is one that a name stands for.
-/

namespace Ontology

/-- A failure is no result. -/
@[simp] theorem LoadFault.raise_ne_ok {α : Type} {fault : LoadFault} {a : α} :
    (fault.raise : Loading α) ≠ .ok a := by
  simp [raise]

/-- Nothing happens behind a failure. -/
@[simp] theorem LoadFault.raise_bind {α β : Type} {fault : LoadFault} {f : α → Loading β} :
    (fault.raise : Loading α) >>= f = fault.raise :=
  rfl

/-! ### Terms -/

mutual

/-- The terms in a node, at any depth. -/
def Node.terms : Node → List Term
  | .term t => [t]
  | .raw _ => []
  | .pairs entries => entries.flatMap fun (key, value) => key :: value.terms
  | .list items => Node.termsOfAll items
  | .container _ data => data.terms
  | .combination _ items => Node.termsOfAll items
termination_by structural n => n

/-- The terms in a list of nodes. -/
def Node.termsOfAll : List Node → List Term
  | [] => []
  | n :: rest => n.terms ++ Node.termsOfAll rest
termination_by structural ns => ns

end

/-- An entity in a term is what its name stands for. -/
def Term.IsNamed (w : World) : Term → Prop
  | .entity name e => w.lookup? name = some e
  | .literal _ | .unresolved _ => True

namespace Node

theorem mem_termsOfAll {t : Term} {ns : List Node} :
    t ∈ termsOfAll ns ↔ ∃ n ∈ ns, t ∈ n.terms := by
  induction ns with
  | nil => simp [termsOfAll]
  | cons n rest ih => simp [termsOfAll, ih]

/-- Gathering elements neither adds terms nor drops any. -/
theorem mem_terms_gather {t : Term} (gathering : Gathering) (keyword : String) (ns : List Node) :
    t ∈ (gathering.gather keyword ns).terms ↔ ∃ n ∈ ns, t ∈ n.terms := by
  cases gathering with
  | list => rw [Gathering.gather, terms, mem_termsOfAll]
  | container => rw [Gathering.gather, terms, terms, mem_termsOfAll]
  | built kind => rw [Gathering.gather, terms, mem_termsOfAll]
  | combined kind =>
    -- a single element stands for itself
    rcases ns with _ | ⟨n, _ | ⟨m, rest⟩⟩
    · simp [Gathering.gather, terms, termsOfAll]
    · simp [Gathering.gather, terms]
    · simp [Gathering.gather, terms, mem_termsOfAll]

theorem terms_data (n : Node) : n.data.terms = n.terms := by
  cases n <;> simp [data, terms]

/-- The property that a node names is the entity of one of its terms. -/
theorem exists_term_of_toProperty {n : Node} {p : PropertyId} (h : n.toProperty = .ok p) :
    ∃ name, .entity name (.property p) ∈ n.terms := by
  rw [toProperty] at h
  split at h
  · next name q hdata =>
    rw [Except.ok.injEq] at h
    subst h
    exact ⟨name, by rw [← terms_data, hdata, terms]; exact List.mem_singleton_self _⟩
  · simp at h

end Node

namespace World

variable {w : World}

/-! ### Scalars -/

theorem isNamed_of_resolveName {lenient : Bool} {text : String} {t : Term}
    (h : w.resolveName lenient text = .ok t) : t.IsNamed w := by
  rw [resolveName] at h
  split at h
  · rw [← Except.ok.inj h]
    trivial
  split at h
  · next e he =>
    rw [← Except.ok.inj h]
    exact he
  split at h
  · rw [← Except.ok.inj h]
    trivial
  · simp at h

theorem isNamed_of_resolve {lenient : Bool} {tree : Tree} {t : Term}
    (h : w.resolve lenient tree = .ok t) : t.IsNamed w := by
  cases tree with
  | string text => exact isNamed_of_resolveName h
  | bool b | int n | float x =>
    rw [resolve, Except.ok.injEq] at h
    rw [← h]
    trivial
  | null | sequence _ | mapping _ | tagged _ _ => simp [resolve] at h

theorem isNamed_of_pairValue {entries : List (Tree × Tree)} {tree : Tree} {v : PairValue}
    (h : w.pairValue entries tree = .ok v) : ∀ t ∈ v.terms, t.IsNamed w := by
  intro t ht
  cases tree with
  | sequence items =>
    obtain ⟨terms, hterms, h⟩ := exists_of_bind_eq_ok h
    rw [← Except.ok.inj h] at ht
    obtain ⟨_, _, ht⟩ := exists_of_forall₂_right (mapM_eq_ok hterms) ht
    exact isNamed_of_resolve ht
  | string _ | int _ | float _ | bool _ =>
    obtain ⟨u, hu, h⟩ := exists_of_bind_eq_ok h
    rw [← Except.ok.inj h, PairValue.terms, List.mem_singleton] at ht
    rw [ht]
    exact isNamed_of_resolve hu
  | null | mapping _ | tagged _ _ => simp [pairValue] at h

/-! ### Elements -/

theorem isNamed_of_pairs {entries : List (Tree × Tree)} {n : Node}
    (h : w.pairs entries = .ok n) : ∀ t ∈ n.terms, t.IsNamed w := by
  intro t ht
  obtain ⟨named, -, h⟩ := exists_of_bind_eq_ok h
  obtain ⟨read, hread, h⟩ := exists_of_bind_eq_ok h
  rw [← Except.ok.inj h, Node.terms, List.mem_flatMap] at ht
  obtain ⟨entry, hentry, ht⟩ := ht
  obtain ⟨_, _, hentry⟩ := exists_of_forall₂_right (mapM_eq_ok hread) hentry
  obtain ⟨key, hkey, hentry⟩ := exists_of_bind_eq_ok hentry
  obtain ⟨value, hvalue, hentry⟩ := exists_of_bind_eq_ok hentry
  rw [← Except.ok.inj hentry] at ht
  rcases List.mem_cons.mp ht with rfl | ht
  · exact isNamed_of_resolveName hkey
  · exact isNamed_of_pairValue hvalue t ht

theorem isNamed_of_plainElement {element : Element} {tree : Tree} {n : Node}
    (h : w.plainElement element tree = .ok n) : ∀ t ∈ n.terms, t.IsNamed w := by
  intro t ht
  cases element with
  | term =>
    obtain ⟨u, hu, h⟩ := exists_of_bind_eq_ok h
    rw [← Except.ok.inj h, Node.terms, List.mem_singleton] at ht
    rw [ht]
    exact isNamed_of_resolve hu
  | raw | pairs =>
    rw [plainElement, Except.ok.injEq] at h
    rw [← h, Node.terms] at ht
    simp at ht

theorem isNamed_of_element {keyword : String} {element : Element} {tree : Tree} {n : Node}
    (h : w.element keyword element tree = .ok n) : ∀ t ∈ n.terms, t.IsNamed w := by
  obtain ⟨plain, hplain, h⟩ := exists_of_bind_eq_ok h
  cases element with
  | term | raw =>
    rw [← Except.ok.inj h]
    exact isNamed_of_plainElement hplain
  | pairs =>
    dsimp only at h
    split at h
    · exact isNamed_of_pairs h
    · simp at h

/-! ### Keywords -/

theorem isNamed_of_scalarBelow {keyword : String} {tree : Tree} {n : Node}
    (h : scalarBelow keyword tree = .ok n) : ∀ t ∈ n.terms, t.IsNamed w := by
  rw [scalarBelow] at h
  split at h
  · simp [unknownKeyword] at h
  · rw [← Except.ok.inj h, Node.terms]
    simp
  · simp at h

mutual

/-- Every entity below a keyword has a name. -/
theorem isNamed_of_applyKeyword {keyword : String} :
    ∀ {tree : Tree} {n : Node}, w.applyKeyword keyword tree = .ok n →
      ∀ t ∈ n.terms, t.IsNamed w
  | .sequence items, n, h => by
    intro t ht
    rw [applyKeyword] at h
    split at h
    · simp [unknownKeyword] at h
    · rw [← Except.ok.inj h, Node.terms] at ht
      simp at ht
    · obtain ⟨elements, helements, h⟩ := exists_of_bind_eq_ok h
      rw [← Except.ok.inj h, Node.mem_terms_gather] at ht
      obtain ⟨element, helement, ht⟩ := ht
      obtain ⟨_, _, helement⟩ := exists_of_forall₂_right (mapM_eq_ok helements) helement
      exact isNamed_of_element helement t ht
  | .mapping entries, n, h => by
    -- a mapping holds further keywords
    intro t ht
    rw [applyKeyword] at h
    split at h
    · simp [unknownKeyword] at h
    · rw [← Except.ok.inj h, Node.terms] at ht
      simp at ht
    · obtain ⟨_, -, h⟩ := exists_of_bind_eq_ok h
      obtain ⟨nodes, hnodes, h⟩ := exists_of_bind_eq_ok h
      rw [← Except.ok.inj h, Node.mem_terms_gather] at ht
      exact isNamed_of_applyEntries hnodes t ht
  | .string text, n, h => by
    intro t ht
    rw [applyKeyword] at h
    split at h
    · simp [unknownKeyword] at h
    · rw [← Except.ok.inj h, Node.terms] at ht
      simp at ht
    split at h
    · obtain ⟨element, helement, h⟩ := exists_of_bind_eq_ok h
      rw [← Except.ok.inj h, Node.mem_terms_gather] at ht
      obtain ⟨m, hm, ht⟩ := ht
      rw [List.mem_singleton] at hm
      exact isNamed_of_element helement t (hm ▸ ht)
    · exact isNamed_of_plainElement h t ht
  | .null, _, h | .bool _, _, h | .int _, _, h | .float _, _, h | .tagged _ _, _, h => by
    rw [applyKeyword] at h
    exact isNamed_of_scalarBelow h
termination_by structural tree => tree

/-- Every entity below the keywords of a mapping has a name. -/
theorem isNamed_of_applyEntries :
    ∀ {entries : List (Tree × Tree)} {ns : List Node}, w.applyEntries entries = .ok ns →
      ∀ t, (∃ n ∈ ns, t ∈ n.terms) → t.IsNamed w
  | [], ns, h => by
    rw [applyEntries, Except.ok.injEq] at h
    simp [← h]
  | (key, value) :: rest, ns, h => by
    rw [applyEntries] at h
    obtain ⟨text, -, h⟩ := exists_of_bind_eq_ok h
    obtain ⟨n, hn, h⟩ := exists_of_bind_eq_ok h
    obtain ⟨others, hothers, h⟩ := exists_of_bind_eq_ok h
    rw [← Except.ok.inj h]
    rintro t ⟨m, hm, ht⟩
    rcases List.mem_cons.mp hm with rfl | hm
    · exact isNamed_of_applyKeyword hn t ht
    · exact isNamed_of_applyEntries hothers t ⟨m, hm, ht⟩
termination_by structural entries => entries

end

/-- **Every entity in a body has a name.** -/
theorem isNamed_of_readKeywords {entries : List (Tree × Tree)} {body : List (String × Node)}
    (h : w.readKeywords entries = .ok body) {keyword : String} {n : Node}
    (hn : body.lookup keyword = some n) : ∀ t ∈ n.terms, t.IsNamed w := by
  obtain ⟨texts, -, h⟩ := exists_of_bind_eq_ok h
  have hmem : (keyword, n) ∈ body := by
    obtain ⟨before, behind, rfl, -⟩ := List.lookup_eq_some_iff.mp hn
    simp
  obtain ⟨⟨key, value⟩, _, hread⟩ := exists_of_forall₂_right (mapM_eq_ok h) hmem
  dsimp only at hread
  split at hread
  · next m hm =>
    obtain ⟨rfl, rfl⟩ := Prod.mk.inj (Except.ok.inj hread)
    exact isNamed_of_applyKeyword hm
  · split at hread <;> simp at hread

end World

/-- A property that a body mentions is one that a name stands for. -/
theorem Node.exists_name_of_toProperty {w : World} {entries : List (Tree × Tree)}
    {body : List (String × Node)} (h : w.readKeywords entries = .ok body) {keyword : String}
    {n : Node} (hn : body.lookup keyword = some n) {p : PropertyId} (hp : n.toProperty = .ok p) :
    ∃ name, w.lookup? name = some (.property p) := by
  obtain ⟨name, ht⟩ := exists_term_of_toProperty hp
  exact ⟨name, World.isNamed_of_readKeywords h hn _ ht⟩

end Ontology
