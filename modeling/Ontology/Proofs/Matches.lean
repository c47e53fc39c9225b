import Mathlib.Data.Multiset.Sections
import Ontology.Proofs.Lists
import Ontology.Query.Evaluation

/-!
# Matches of patterns

A match gives each of some patterns a triple of a graph, such that what a pattern names stands in
its triple and the places of one variable agree.  A query is answered in another way: patterns are
matched one after the other, in an order that is planned, and a place is compared only with what its
variable was bound to first.  Terms are the same if they are equal or numbers of one value, which is
an equivalence.  So whatever agrees with the first place of a variable agrees with all of them, and
no order misses a match.

## Main definitions

* `Match` — patterns with triples; `Rdf.Graph.IsMatch` — a match of patterns in a graph.
* `Agree` — what stands at places is what they ask for, and the same for the same variable.
* `unifyAll` — binds the variables of places one after the other.
* `Rdf.Graph.matches` — the matches of patterns, in the order in which they are found.

## Main results

* `Rdf.Term.equivalence_sameAs` — **being the same is an equivalence of terms.**
* `unifyAll_spec` — the variables of places can be bound if and only if the places agree.
* `forall₂_matches_solutions` — **the solutions of patterns are those of their matches.**
* `Rdf.Graph.exists_matches_perm` — matches do not depend on the order of patterns.
-/

namespace Ontology

/-! ### Equality of terms -/

namespace Binary64

variable {x y z : Binary64}

/-- Zero, with either sign. -/
def IsZero (x : Binary64) : Prop :=
  ∃ negative exponent, x.view = .finite negative 0 exponent

/-- Values are equal as numbers if they are one number or both zero. -/
theorem sameValue_iff : x.sameValue y = true ↔
    x.view ≠ .nan ∧ y.view ≠ .nan ∧ (x = y ∨ x.IsZero ∧ y.IsZero) := by
  rw [sameValue]
  split
  · next hx => simp [hx]
  · next hy _ => simp [hy]
  · next hx hy => simp [hx, hy, IsZero]
  · next hx hy hzero =>
    rw [decide_eq_true_iff]
    refine ⟨fun h => ⟨hx, hy, .inl h⟩, fun ⟨_, _, h⟩ => h.resolve_right ?_⟩
    rintro ⟨⟨_, _, h⟩, _, _, h'⟩
    exact hzero _ _ _ _ h h'

theorem sameValue_symm (h : x.sameValue y = true) : y.sameValue x = true := by
  obtain ⟨hx, hy, h⟩ := sameValue_iff.mp h
  exact sameValue_iff.mpr ⟨hy, hx, h.imp Eq.symm And.symm⟩

theorem sameValue_trans (h : x.sameValue y = true) (h' : y.sameValue z = true) :
    x.sameValue z = true := by
  obtain ⟨hx, _, h⟩ := sameValue_iff.mp h
  obtain ⟨_, hz, h'⟩ := sameValue_iff.mp h'
  refine sameValue_iff.mpr ⟨hx, hz, ?_⟩
  rcases h with rfl | ⟨hx, hy⟩
  · exact h'
  · rcases h' with rfl | ⟨_, hz⟩
    · exact .inr ⟨hx, hy⟩
    · exact .inr ⟨hx, hz⟩

end Binary64

namespace Rdf

theorem Literal.sameAs_iff {a b : Literal} : a.sameAs b = true ↔
    a = b ∨ ∃ x y, a.number? = some x ∧ b.number? = some y ∧ x.sameValue y = true := by
  rw [Literal.sameAs, Bool.or_eq_true, decide_eq_true_iff]
  refine or_congr_right ?_
  split
  · next x y hx hy => simp [hx, hy]
  · next h =>
    exact ⟨fun hf => absurd hf Bool.false_ne_true, fun ⟨x, y, hx, hy, _⟩ => absurd hy (h x y hx)⟩

/-- A literal that is no number is the same as itself only, and numbers have one value each. -/
theorem Literal.equivalence_sameAs : Equivalence fun a b : Literal => a.sameAs b = true where
  refl a := sameAs_iff.mpr (.inl rfl)
  symm {a b} h := by
    rcases sameAs_iff.mp h with rfl | ⟨x, y, hx, hy, h⟩
    · exact sameAs_iff.mpr (.inl rfl)
    · exact sameAs_iff.mpr (.inr ⟨y, x, hy, hx, Binary64.sameValue_symm h⟩)
  trans {a b c} h h' := by
    rcases sameAs_iff.mp h with rfl | ⟨x, y, hx, hy, h⟩
    · exact h'
    rcases sameAs_iff.mp h' with rfl | ⟨y', z, hy', hz, h'⟩
    · exact sameAs_iff.mpr (.inr ⟨x, y, hx, hy, h⟩)
    · obtain rfl : y = y' := Option.some.inj (hy.symm.trans hy')
      exact sameAs_iff.mpr (.inr ⟨x, z, hx, hz, Binary64.sameValue_trans h h'⟩)

theorem Term.sameAs_iff {a b : Term} : a.sameAs b = true ↔
    a = b ∨ ∃ l m, a = .literal l ∧ b = .literal m ∧ l.sameAs m = true := by
  cases a with
  | resource r => simp [sameAs]
  | literal l =>
    cases b with
    | resource r => simp [sameAs]
    | literal m =>
      constructor
      · exact fun h => .inr ⟨l, m, rfl, rfl, h⟩
      · rintro (h | ⟨_, _, ⟨⟩, ⟨⟩, h⟩)
        · exact Literal.sameAs_iff.mpr (.inl (Term.literal.inj h))
        · exact h

/-- **Being the same is an equivalence of terms.** -/
theorem Term.equivalence_sameAs : Equivalence fun a b : Term => a.sameAs b = true where
  refl a := sameAs_iff.mpr (.inl rfl)
  symm {a b} h := by
    rcases sameAs_iff.mp h with rfl | ⟨l, m, rfl, rfl, h⟩
    · exact sameAs_iff.mpr (.inl rfl)
    · exact Literal.equivalence_sameAs.symm h
  trans {a b c} h h' := by
    rcases sameAs_iff.mp h with rfl | ⟨l, m, rfl, rfl, h⟩
    · exact h'
    rcases sameAs_iff.mp h' with rfl | ⟨_, n, ⟨⟩, rfl, h'⟩
    · exact h
    · exact Literal.equivalence_sameAs.trans h h'

end Rdf

/-! ### Matches -/

/-- What stands at the places of a triple. -/
def Rdf.Triple.terms (t : Rdf.Triple) : List Rdf.Term :=
  [.resource t.subject, .iri t.predicate, t.object]

/-- What a place asks for, whatever stands at other places. -/
def PatternTerm.Admits (t : Rdf.Term) : PatternTerm → Prop
  | .variable _ => True
  | .iri text => t = .iri text
  | .literal l => ∃ m, t = .literal m ∧ l.sameAs m = true

/-- Places of patterns with what stands there. -/
abbrev Places := List (PatternTerm × Rdf.Term)

/-- What stands at places is what they ask for, and the same for the same variable. -/
structure Agree (places : Places) : Prop where
  admitted : ∀ p t, (p, t) ∈ places → p.Admits t
  same : ∀ name a b, (.variable name, a) ∈ places → (.variable name, b) ∈ places →
    a.sameAs b = true

/-- Patterns with the triples that they are matched with. -/
abbrev Match := List (TriplePattern × Rdf.Triple)

/-- The places of the patterns of a match. -/
def Match.places (m : Match) : Places :=
  m.flatMap fun (p, t) => p.terms.zip t.terms

/-- A match of patterns in a graph. -/
structure Rdf.Graph.IsMatch (g : Rdf.Graph) (ps : List TriplePattern) (m : Match) : Prop where
  patterns : m.map Prod.fst = ps
  triples : ∀ row ∈ m, row.2 ∈ g.triples
  agree : Agree m.places

theorem agree_nil : Agree [] :=
  ⟨fun _ _ h => absurd h List.not_mem_nil, fun _ _ _ h => absurd h List.not_mem_nil⟩

theorem Agree.anti {places more : Places} (h : Agree more) (hsubset : places ⊆ more) :
    Agree places where
  admitted p t ht := h.admitted p t (hsubset ht)
  same name a b ha hb := h.same name a b (hsubset ha) (hsubset hb)

theorem Match.places_perm {m m' : Match} (h : m.Perm m') : m.places.Perm m'.places :=
  h.flatMap_right _

/-- Something stands at each place of a pattern. -/
theorem Match.exists_mem_places {m : Match} {p : TriplePattern} (hp : p ∈ m.map Prod.fst)
    {term : PatternTerm} (hterm : term ∈ p.terms) : ∃ t, (term, t) ∈ m.places := by
  obtain ⟨⟨p, t⟩, hpt, rfl⟩ := List.mem_map.mp hp
  have hplace : ∃ u, (term, u) ∈ p.terms.zip t.terms := by
    simp only [TriplePattern.terms, List.mem_cons, List.not_mem_nil, or_false] at hterm
    rcases hterm with rfl | rfl | rfl
    · exact ⟨.resource t.subject, by simp [TriplePattern.terms, Rdf.Triple.terms]⟩
    · exact ⟨.iri t.predicate, by simp [TriplePattern.terms, Rdf.Triple.terms]⟩
    · exact ⟨t.object, by simp [TriplePattern.terms, Rdf.Triple.terms]⟩
  obtain ⟨u, hu⟩ := hplace
  exact ⟨u, List.mem_flatMap.mpr ⟨_, hpt, hu⟩⟩

/-! ### The first place of a variable -/

theorem lookup_append_singleton (places : Places) (p q : PatternTerm) (t : Rdf.Term) :
    (places ++ [(p, t)]).lookup q = (places.lookup q).or (if q = p then some t else none) := by
  rw [List.lookup_append, List.lookup_cons, List.lookup_nil]
  by_cases h : q = p
  · simp [h]
  · simp [h, beq_false_of_ne h]

theorem mem_of_lookup {places : Places} {p : PatternTerm} {t : Rdf.Term}
    (h : places.lookup p = some t) : (p, t) ∈ places := by
  obtain ⟨before, after, rfl, -⟩ := List.lookup_eq_some_iff.mp h
  exact List.mem_append_right _ List.mem_cons_self

theorem exists_lookup_of_mem {places : Places} {p : PatternTerm} {t : Rdf.Term}
    (h : (p, t) ∈ places) : ∃ a, places.lookup p = some a := by
  rw [← Option.ne_none_iff_exists', ne_eq, List.lookup_eq_none_iff]
  intro hnone
  simpa using hnone _ h

/-- One more place agrees with places that agree already if it agrees with the first place of its
variable. -/
theorem agree_append_singleton {places : Places} (hplaces : Agree places) {p : PatternTerm}
    {t : Rdf.Term} : Agree (places ++ [(p, t)]) ↔ p.Admits t ∧
      ∀ name a, p = .variable name → places.lookup p = some a → a.sameAs t = true := by
  constructor
  · intro h
    have hlast : (p, t) ∈ places ++ [(p, t)] :=
      List.mem_append_right _ (List.mem_singleton_self _)
    refine ⟨h.admitted _ _ hlast, ?_⟩
    rintro name a rfl ha
    exact h.same name a t (List.mem_append_left _ (mem_of_lookup ha)) hlast
  · rintro ⟨hadmits, hfirst⟩
    -- what stands at another place of the variable is the same as at its first one
    have hlast : ∀ name a, p = .variable name → (.variable name, a) ∈ places →
        a.sameAs t = true := by
      rintro name a rfl ha
      obtain ⟨b, hb⟩ := exists_lookup_of_mem ha
      exact Rdf.Term.equivalence_sameAs.trans (hplaces.same name a b ha (mem_of_lookup hb))
        (hfirst name b rfl hb)
    constructor
    · intro q u h
      rcases List.mem_append.mp h with h | h
      · exact hplaces.admitted q u h
      · obtain ⟨rfl, rfl⟩ := Prod.mk.inj (List.mem_singleton.mp h)
        exact hadmits
    · intro name a b ha hb
      rw [List.mem_append, List.mem_singleton, Prod.mk.injEq] at ha hb
      rcases ha with ha | ⟨hp, rfl⟩ <;> rcases hb with hb | ⟨hp', rfl⟩
      · exact hplaces.same name a b ha hb
      · exact hlast name a hp'.symm ha
      · exact Rdf.Term.equivalence_sameAs.symm (hlast name b hp.symm hb)
      · exact Rdf.Term.equivalence_sameAs.refl _

/-! ### Binding variables -/

/-- Makes places match what stands there, one after the other. -/
def unifyAll (s : Solution) (places : Places) : Option Solution :=
  places.foldlM (fun s (p, t) => p.unify s t) s

theorem unifyAll_cons (s : Solution) (p : PatternTerm) (t : Rdf.Term) (rest : Places) :
    unifyAll s ((p, t) :: rest) = (p.unify s t).bind (unifyAll · rest) := by
  rw [unifyAll, List.foldlM_cons]
  rfl

theorem TriplePattern.unify_eq (s : Solution) (p : TriplePattern) (t : Rdf.Triple) :
    p.unify s t = unifyAll s (p.terms.zip t.terms) := by
  simp [TriplePattern.unify, unifyAll, TriplePattern.terms, Rdf.Triple.terms]

theorem unifyAll_places_cons (s : Solution) (p : TriplePattern) (t : Rdf.Triple) (m : Match) :
    unifyAll s (Match.places ((p, t) :: m)) = (p.unify s t).bind (unifyAll · m.places) := by
  rw [Match.places, List.flatMap_cons, TriplePattern.unify_eq]
  exact List.foldlM_append

/-- A solution binds each variable to what stands at its first place. -/
def Solution.Represents (s : Solution) (places : Places) : Prop :=
  ∀ name, s.lookup name = places.lookup (.variable name)

theorem Solution.represents_nil : Solution.Represents [] [] :=
  fun _ => rfl

section Unify

variable {s s' : Solution} {places : Places} {p : PatternTerm} {t : Rdf.Term}

/-- A place can be made to match if it agrees with the places before it. -/
theorem isSome_unify (hs : s.Represents places) (hplaces : Agree places) :
    (p.unify s t).isSome ↔ Agree (places ++ [(p, t)]) := by
  rw [agree_append_singleton hplaces]
  cases p with
  | «variable» name =>
    rw [PatternTerm.unify, hs name]
    cases places.lookup (.variable name) with
    | none => simp [PatternTerm.Admits]
    | some a => cases h : a.sameAs t <;> simp [PatternTerm.Admits, h]
  | iri text => by_cases h : t = .iri text <;> simp [PatternTerm.unify, PatternTerm.Admits, h]
  | literal l =>
    cases t with
    | resource r => simp [PatternTerm.unify, PatternTerm.Admits]
    | literal m => cases h : l.sameAs m <;> simp [PatternTerm.unify, PatternTerm.Admits, h]

/-- A variable is bound at its first place, and no other place binds anything. -/
theorem Solution.Represents.unify (hs : s.Represents places) (h : p.unify s t = some s') :
    s'.Represents (places ++ [(p, t)]) := by
  intro name
  rw [lookup_append_singleton, ← hs name]
  cases p with
  | «variable» x =>
    rw [PatternTerm.unify] at h
    split at h
    · next bound hbound =>
      split at h
      · rw [← Option.some.inj h]
        by_cases hname : name = x
        · rw [hname, hbound, Option.some_or]
        · simp [hname]
      · cases h
    · next hbound =>
      rw [← Option.some.inj h, List.lookup_cons]
      by_cases hname : name = x
      · simp [hname, hbound]
      · simp [hname, beq_false_of_ne hname]
  | iri text =>
    rw [PatternTerm.unify] at h
    split at h
    · simp [← Option.some.inj h]
    · cases h
  | literal l =>
    cases t with
    | resource r => cases h
    | literal m =>
      rw [PatternTerm.unify] at h
      split at h
      · simp [← Option.some.inj h]
      · cases h

end Unify

/-- The variables of places can be bound if and only if the places agree. -/
theorem unifyAll_spec {s : Solution} {done places : Places} (hs : s.Represents done)
    (hdone : Agree done) :
    ((unifyAll s places).isSome ↔ Agree (done ++ places)) ∧
      ∀ s', unifyAll s places = some s' → s'.Represents (done ++ places) := by
  induction places generalizing s done with
  | nil => simpa [unifyAll, hdone] using hs
  | cons place rest ih =>
    obtain ⟨p, t⟩ := place
    rw [unifyAll_cons, List.append_cons]
    have hiff := isSome_unify (p := p) (t := t) hs hdone
    cases hunify : p.unify s t with
    | none =>
      rw [hunify] at hiff
      have hnot : ¬Agree (done ++ [(p, t)] ++ rest) := fun h =>
        Bool.false_ne_true (hiff.mpr (h.anti (List.subset_append_left _ _)))
      exact ⟨iff_of_false Bool.false_ne_true hnot, fun _ h => nomatch h⟩
    | some s₁ =>
      rw [hunify] at hiff
      exact ih (hs.unify hunify) (hiff.mp rfl)

theorem isSome_unifyAll_iff {places : Places} : (unifyAll [] places).isSome ↔ Agree places :=
  (unifyAll_spec Solution.represents_nil agree_nil).1

theorem represents_of_unifyAll {s : Solution} {places : Places}
    (h : unifyAll [] places = some s) : s.Represents places :=
  (unifyAll_spec Solution.represents_nil agree_nil).2 s h

/-! ### All matches of some patterns -/

namespace Rdf.Graph

variable {g : Graph} {ps qs : List TriplePattern} {m : Match}

/-- All ways to give each of some patterns a triple. -/
def pairings (g : Graph) : List TriplePattern → List Match
  | [] => [[]]
  | p :: rest => g.triples.flatMap fun t => (g.pairings rest).map ((p, t) :: ·)

/-- The matches of patterns, in the order in which they are found. -/
def «matches» (g : Graph) (ps : List TriplePattern) : List Match :=
  (g.pairings ps).filter fun m => (unifyAll [] m.places).isSome

theorem mem_pairings :
    m ∈ g.pairings ps ↔ m.map Prod.fst = ps ∧ ∀ row ∈ m, row.2 ∈ g.triples := by
  induction ps generalizing m with
  | nil => cases m <;> simp [pairings]
  | cons p rest ih =>
    cases m with
    | nil => simp [pairings]
    | cons row m =>
      simp only [pairings, List.mem_flatMap, List.mem_map, ih, List.map_cons, List.cons.injEq,
        List.forall_mem_cons]
      grind

theorem mem_matches : m ∈ g.matches ps ↔ g.IsMatch ps m := by
  rw [«matches», List.mem_filter, mem_pairings, isSome_unifyAll_iff]
  exact ⟨fun ⟨⟨h, h'⟩, h''⟩ => ⟨h, h', h''⟩, fun ⟨h, h', h''⟩ => ⟨⟨h, h'⟩, h''⟩⟩

theorem nodup_insert (hg : g.triples.Nodup) (t : Triple) : (g.insert t).triples.Nodup := by
  rw [insert]
  split
  · exact hg
  · next ht => exact List.nodup_cons.mpr ⟨ht, hg⟩

/-- A graph that is made of a list of triples, such as that of an ontology, holds each triple
once. -/
theorem nodup_ofList (ts : List Triple) : (ofList ts).triples.Nodup :=
  List.foldlRecOn (motive := fun g : Graph => g.triples.Nodup) ts insert List.nodup_nil
    fun _ hg t _ => nodup_insert hg t

theorem nodup_pairings (hg : g.triples.Nodup) (ps : List TriplePattern) :
    (g.pairings ps).Nodup := by
  induction ps with
  | nil => exact List.nodup_singleton _
  | cons p rest ih =>
    rw [pairings, List.nodup_flatMap]
    refine ⟨fun t _ => ih.map List.cons_injective, hg.imp fun hne => ?_⟩
    rw [Function.onFun_apply, List.disjoint_left]
    simp only [List.mem_map, not_exists, not_and, forall_exists_index, and_imp]
    rintro _ m _ rfl m' _ h
    exact hne (congrArg (fun m : Match => (m.headD default).2) h).symm

/-- In a graph that holds each triple once, each match is found once. -/
theorem nodup_matches (hg : g.triples.Nodup) (ps : List TriplePattern) : (g.matches ps).Nodup :=
  (nodup_pairings hg ps).filter _

/-- As patterns that are in no order have them, pairings are sections. -/
theorem coe_pairings (g : Graph) (ps : List TriplePattern) :
    (((g.pairings ps).map Multiset.ofList : List _) : Multiset (Multiset _)) =
      Multiset.Sections ((ps : Multiset TriplePattern).map fun p =>
        (g.triples : Multiset Triple).map (p, ·)) := by
  induction ps with
  | nil => rfl
  | cons p rest ih =>
    rw [← Multiset.cons_coe, Multiset.map_cons, Multiset.sections_cons, ← ih, pairings,
      List.map_flatMap, ← Multiset.coe_bind, Multiset.bind_map]
    refine congrArg (Multiset.bind _) (funext fun t => ?_)
    rw [List.map_map, Multiset.map_coe, List.map_map]
    rfl

/-- Matches do not depend on the order of patterns: those of a list of patterns are, each put into
the other order, those of the other list. -/
theorem exists_matches_perm (g : Graph) (h : ps.Perm qs) :
    ∃ ms, ms.Perm (g.matches qs) ∧ List.Forall₂ List.Perm (g.matches ps) ms := by
  classical
  -- whether a pairing is a match can be told without the order of its patterns
  have hmap : ∀ ps : List TriplePattern, (g.matches ps).map Multiset.ofList =
      ((g.pairings ps).map Multiset.ofList).filter fun M =>
        decide (∃ m : Match, Multiset.ofList m = M ∧ Agree m.places) := by
    intro ps
    rw [List.filter_map, «matches»]
    refine congrArg (List.map Multiset.ofList) (List.filter_congr fun m _ => ?_)
    rw [Bool.eq_iff_iff, isSome_unifyAll_iff, Function.comp_apply, decide_eq_true_iff]
    constructor
    · exact fun h => ⟨m, rfl, h⟩
    · rintro ⟨m', hm, h⟩
      exact h.anti (Match.places_perm (Multiset.coe_eq_coe.mp hm)).symm.subset
  have hpairings : ((g.pairings ps).map Multiset.ofList).Perm
      ((g.pairings qs).map Multiset.ofList) := by
    rw [← Multiset.coe_eq_coe, coe_pairings, coe_pairings, Multiset.coe_eq_coe.mpr h]
  have hmatches : ((g.matches ps).map Multiset.ofList).Perm
      ((g.matches qs).map Multiset.ofList) := by
    rw [hmap, hmap]
    exact hpairings.filter _
  have hsame : List.Forall₂ (fun M m => M = Multiset.ofList m)
      ((g.matches qs).map Multiset.ofList) (g.matches qs) := by
    rw [List.forall₂_map_left_iff, List.forall₂_same]
    exact fun _ _ => rfl
  obtain ⟨ms, hms, hperm⟩ := List.perm_comp_forall₂ hmatches hsame
  rw [List.forall₂_map_left_iff] at hms
  exact ⟨ms, hperm, hms.imp fun _ _ h => Multiset.coe_eq_coe.mp h⟩

end Rdf.Graph

/-! ### Matches and solutions -/

theorem foldl_solutions (g : Rdf.Graph) (ps : List TriplePattern) (ss : List Solution) :
    ps.foldl (fun ss p => ss.flatMap fun s => p.solutions g s) ss =
      ss.flatMap fun s => (g.pairings ps).filterMap fun m => unifyAll s m.places := by
  induction ps generalizing ss with
  | nil => simp [Rdf.Graph.pairings, Match.places, unifyAll]
  | cons p rest ih =>
    rw [List.foldl_cons, ih, List.flatMap_assoc]
    refine congrArg (List.flatMap · ss) (funext fun s => ?_)
    rw [Rdf.Graph.pairings, List.filterMap_flatMap]
    simp only [List.filterMap_map, Function.comp_def, unifyAll_places_cons]
    rw [TriplePattern.solutions]
    -- a triple that does not match the pattern leads to no solution
    induction g.triples with
    | nil => rfl
    | cons t ts iht =>
      rw [List.flatMap_cons, ← iht, List.filterMap_cons]
      cases p.unify s t with
      | none => simp
      | some s' => simp

/-- **The solutions of patterns are those of their matches.** -/
theorem forall₂_matches_solutions (g : Rdf.Graph) (ps : List TriplePattern) :
    List.Forall₂ (fun m s => g.IsMatch ps m ∧ unifyAll [] m.places = some s) (g.matches ps)
      (SelectQuery.solutions g ps) := by
  rw [List.forall₂_and_left, SelectQuery.solutions, foldl_solutions, List.flatMap_singleton]
  exact ⟨fun _ => Rdf.Graph.mem_matches.mp, forall₂_filterMap _ _⟩

/-! ### The planned order -/

namespace SelectQuery

theorem bestPlace_lt (known : List String) {ps : List TriplePattern} (h : ps ≠ []) :
    bestPlace known ps < ps.length := by
  induction ps with
  | nil => exact absurd rfl h
  | cons p rest ih =>
    rw [bestPlace]
    split
    · next q hq =>
      split
      · exact Nat.zero_lt_succ _
      · exact Nat.succ_lt_succ (List.getElem?_eq_some_iff.mp hq).1
    · exact Nat.zero_lt_succ _

theorem planFrom_perm (known : List String) {count : Nat} {ps : List TriplePattern}
    (h : ps.length = count) : (planFrom known count ps).Perm ps := by
  induction count generalizing known ps with
  | zero =>
    rw [List.length_eq_zero_iff.mp h]
    exact .nil
  | succ count ih =>
    have hne : ps ≠ [] := List.ne_nil_of_length_eq_add_one h
    have hplace := bestPlace_lt known hne
    rw [planFrom]
    simp only [List.getElem?_eq_getElem hplace]
    refine ((ih _ ?_).cons _).trans (List.getElem_cons_eraseIdx_perm hplace)
    rw [List.length_eraseIdx_of_lt hplace, h, Nat.add_sub_cancel]

/-- All patterns are matched, each once. -/
theorem plan_perm (q : SelectQuery) : q.plan.Perm q.patterns :=
  planFrom_perm [] rfl

end SelectQuery

end Ontology
