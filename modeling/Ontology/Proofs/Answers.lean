import Ontology.Proofs.Matches
import Ontology.Rdf.Vocabulary

/-!
# Answers of queries

The rows of a query are those of the matches of its patterns.  A row shows, for each variable that
is asked for, what stands at one of its places; what stands at its other places is the same, but may
be another text for the same number.  Which place is shown depends on the order of the patterns.  So
other orders give the same rows up to texts of numbers, and the very same rows if no number that is
shown is written in two ways.

## Main definitions

* `Match.IsRow` — a row shows what stands at places of a match.
* `SelectQuery.allRows` — the rows of a query, each as often as it is found.
* `SameCells` — rows that are the same up to texts of numbers.
* `Rdf.Graph.ShowsOneTerm` — the places of a variable that is asked for hold one term.

## Main results

* `SelectQuery.answer_exact` — **the rows of a query are those of the matches of its patterns.**
* `SelectQuery.answer_perm` — **in another order, patterns have the same rows up to texts of
  numbers.**
-/

namespace Ontology

/-! ### Rows of matches -/

namespace Match

variable {m m' : Match} {columns : List String} {row row' : List (Option Rdf.Term)}

/-- A row shows, for each column, what stands at a place of its variable, and that is the same as
what stands at any other place of it. -/
def IsRow (m : Match) (columns : List String) (row : List (Option Rdf.Term)) : Prop :=
  List.Forall₂ (fun name cell => ∃ a, cell = some a ∧ (.variable name, a) ∈ m.places ∧
    ∀ b, (.variable name, b) ∈ m.places → a.sameAs b = true) columns row

theorem IsRow.perm (h : m.IsRow columns row) (hperm : m.Perm m') : m'.IsRow columns row := by
  refine h.imp fun name cell ⟨a, hcell, ha, hsame⟩ => ⟨a, hcell, ?_, fun b hb => hsame b ?_⟩
  · exact (places_perm hperm).subset ha
  · exact (places_perm hperm).symm.subset hb

/-- The row of a solution shows what stands at the first place of each variable. -/
theorem isRow_of_unifyAll {s : Solution} (h : unifyAll [] m.places = some s)
    (hcolumns : ∀ name ∈ columns, ∃ t, (.variable name, t) ∈ m.places) :
    m.IsRow columns (columns.map (s.lookup ·)) := by
  have hs : s.Represents m.places := represents_of_unifyAll h
  have hagree : Agree m.places := isSome_unifyAll_iff.mp (by rw [h]; rfl)
  rw [IsRow, List.forall₂_map_right_iff, List.forall₂_same]
  intro name hname
  obtain ⟨t, ht⟩ := hcolumns name hname
  obtain ⟨a, ha⟩ := exists_lookup_of_mem ht
  exact ⟨a, (hs name).trans ha, mem_of_lookup ha,
    fun b hb => hagree.same name a b (mem_of_lookup ha) hb⟩

end Match

/-- Rows that are the same up to texts of numbers. -/
def SameCells : List (Option Rdf.Term) → List (Option Rdf.Term) → Prop :=
  List.Forall₂ (Option.Rel fun a b => a.sameAs b = true)

/-- A variable that is asked for stands, in each match, for one term, and this is written in one
way. -/
def Rdf.Graph.ShowsOneTerm (g : Rdf.Graph) (ps : List TriplePattern) (columns : List String) :
    Prop :=
  ∀ m, g.IsMatch ps m → ∀ name ∈ columns, ∀ a b,
    (.variable name, a) ∈ m.places → (.variable name, b) ∈ m.places → a = b

namespace Match.IsRow

variable {m : Match} {columns : List String} {row row' : List (Option Rdf.Term)}

/-- Rows of one match may differ in the places that they show. -/
theorem sameCells (h : m.IsRow columns row) (h' : m.IsRow columns row') : SameCells row row' := by
  refine forall₂_comp ?_ h.flip h'
  rintro cell name cell' ⟨a, rfl, -, hsame⟩ ⟨b, rfl, hb, -⟩
  exact .some (hsame b hb)

theorem eq_of_one (h : m.IsRow columns row) (h' : m.IsRow columns row')
    (hone : ∀ name ∈ columns, ∀ a b, (.variable name, a) ∈ m.places →
      (.variable name, b) ∈ m.places → a = b) : row = row' := by
  rw [← List.forall₂_eq_eq_eq]
  refine forall₂_comp ?_ h.flip ((List.forall₂_and_left _ _).mpr ⟨fun name hname => hname, h'⟩)
  rintro cell name cell' ⟨a, rfl, ha, -⟩ ⟨hname, b, rfl, hb, -⟩
  exact congrArg some (hone name hname a b ha hb)

end Match.IsRow

/-! ### Rows of queries -/

namespace SelectQuery

variable {q q' : SelectQuery} {g : Rdf.Graph}

theorem mem_mentioned {name : String} :
    name ∈ q.mentioned ↔ ∃ p ∈ q.patterns, .variable name ∈ p.terms := by
  rw [mentioned, List.mem_eraseDups, List.mem_flatMap]
  refine exists_congr fun p => and_congr_right fun _ => ?_
  rw [TriplePattern.mentioned, List.mem_filterMap]
  constructor
  · rintro ⟨term, hterm, h⟩
    cases term <;> cases h
    exact hterm
  · exact fun h => ⟨_, h, rfl⟩

/-- The rows of a query, each as often as it is found. -/
def allRows (q : SelectQuery) (g : Rdf.Graph) : List (List (Option Rdf.Term)) :=
  (solutions g q.plan).map fun s => q.projected.map (s.lookup ·)

/-- Of the variables that are asked for and occur in no pattern, the first is at fault. -/
theorem exists_unbound {name : String} (hname : name ∈ q.projected)
    (hunbound : name ∉ q.mentioned) :
    ∃ unbound ∈ q.projected, unbound ∉ q.mentioned ∧
      q.projected.find? (· ∉ q.mentioned) = some unbound := by
  have hsome : (q.projected.find? (· ∉ q.mentioned)).isSome :=
    List.find?_isSome.mpr ⟨name, hname, decide_eq_true hunbound⟩
  obtain ⟨unbound, hfind⟩ := Option.isSome_iff_exists.mp hsome
  exact ⟨unbound, List.mem_of_find?_eq_some hfind, by simpa using List.find?_some hfind, hfind⟩

theorem answer_eq_error {unbound : String} (h : q.projected.find? (· ∉ q.mentioned) = some unbound)
    (g : Rdf.Graph) : q.answer g = .error (.unbound unbound) := by
  rw [answer, h]

theorem answer_eq_ok (h : ∀ name ∈ q.projected, name ∈ q.mentioned) (g : Rdf.Graph) :
    q.answer g = .ok ⟨q.projected,
      if q.isDistinct then (q.allRows g).eraseDups else q.allRows g⟩ := by
  have hnone : q.projected.find? (· ∉ q.mentioned) = none := by
    rw [List.find?_eq_none]
    exact fun name hname => by simpa using h name hname
  rw [answer, hnone]
  rfl

/-- Each row is that of one match. -/
theorem exists_matches_allRows (h : ∀ name ∈ q.projected, name ∈ q.mentioned) (g : Rdf.Graph) :
    ∃ ms : List Match, ms.Perm (g.matches q.patterns) ∧
      List.Forall₂ (fun m row => m.IsRow q.projected row) ms (q.allRows g) := by
  obtain ⟨ms, hms, hperm⟩ := g.exists_matches_perm q.plan_perm
  refine ⟨ms, hms, ?_⟩
  rw [allRows, List.forall₂_map_right_iff]
  -- back to the match in the order of the plan, and on to its solution
  refine forall₂_comp (fun m m' s hm ⟨hmatch, hs⟩ => ?_) hperm.flip
    (forall₂_matches_solutions g q.plan)
  refine (Match.isRow_of_unifyAll hs fun name hname => ?_).perm hm
  obtain ⟨p, hp, hterm⟩ := mem_mentioned.mp (h name hname)
  refine Match.exists_mem_places ?_ hterm
  rw [hmatch.patterns]
  exact q.plan_perm.symm.subset hp

/-- **The rows of a query are those of the matches of its patterns**: without repetition, if that is
asked for.  A variable that occurs in no pattern cannot be asked for. -/
theorem answer_exact (q : SelectQuery) {g : Rdf.Graph} (hg : g.triples.Nodup) :
    (∀ name ∈ q.projected, (∀ p ∈ q.patterns, .variable name ∉ p.terms) →
      ∃ unbound ∈ q.projected, (∀ p ∈ q.patterns, .variable unbound ∉ p.terms) ∧
        q.answer g = .error (.unbound unbound) ∧ (QueryFault.unbound unbound).kind = .evaluation) ∧
    ((∀ name ∈ q.projected, ∃ p ∈ q.patterns, .variable name ∈ p.terms) →
      ∃ (ms : List Match) (rows once : List (List (Option Rdf.Term))),
        (ms.Nodup ∧ ∀ m, m ∈ ms ↔ g.IsMatch q.patterns m) ∧
        List.Forall₂ (fun m row => m.IsRow q.projected row) ms rows ∧
        { q with isDistinct := false }.answer g = .ok ⟨q.projected, rows⟩ ∧
        { q with isDistinct := true }.answer g = .ok ⟨q.projected, once⟩ ∧
        once.Nodup ∧ ∀ row, row ∈ once ↔ row ∈ rows) := by
  constructor
  · intro name hname hnone
    have hunbound : name ∉ q.mentioned := by
      rw [mem_mentioned]
      rintro ⟨p, hp, hterm⟩
      exact hnone p hp hterm
    obtain ⟨unbound, hmem, hunbound, hfind⟩ := exists_unbound hname hunbound
    exact ⟨unbound, hmem, fun p hp hterm => hunbound (mem_mentioned.mpr ⟨p, hp, hterm⟩),
      answer_eq_error hfind g, rfl⟩
  · intro hall
    have hmentioned : ∀ name ∈ q.projected, name ∈ q.mentioned :=
      fun name hname => mem_mentioned.mpr (hall name hname)
    obtain ⟨ms, hperm, hrows⟩ := exists_matches_allRows hmentioned g
    have hnodup : ms.Nodup := hperm.nodup_iff.mpr (g.nodup_matches hg q.patterns)
    refine ⟨ms, q.allRows g, (q.allRows g).eraseDups, ⟨hnodup, fun m => ?_⟩, hrows, ?_, ?_,
      nodup_eraseDups _, fun row => List.mem_eraseDups⟩
    · rw [hperm.mem_iff, Rdf.Graph.mem_matches]
    · exact answer_eq_ok (q := { q with isDistinct := false }) hmentioned g
    · exact answer_eq_ok (q := { q with isDistinct := true }) hmentioned g

end SelectQuery

/-- A good with its price. -/
def priced (good value datatype : String) : Rdf.Triple :=
  ⟨.iri good, "price", .literal (.typed value datatype)⟩

/-- A row that shows a good with a price. -/
def pricedRow (good value datatype : String) : List (Option Rdf.Term) :=
  [some (.iri good), some (.literal (.typed value datatype))]

/-- Prices at a market, where a pear costs as much as an apple. -/
def market : Rdf.Graph :=
  .ofList [priced "pear" "2" Rdf.xsd.integer, priced "apple" "2.0" Rdf.xsd.double,
    priced "fig" "3" Rdf.xsd.integer]

/-- Goods with the price of some good. -/
def equalPrices : SelectQuery where
  projection := .named ["a", "x"]
  patterns := [⟨.variable "a", .iri "price", .variable "x"⟩,
    ⟨.variable "b", .iri "price", .variable "x"⟩]

/-- A pear and an apple are found with either price, as each has the price of both. -/
def equalPricesRows : List (List (Option Rdf.Term)) :=
  [pricedRow "fig" "3" Rdf.xsd.integer, pricedRow "apple" "2.0" Rdf.xsd.double,
    pricedRow "pear" "2.0" Rdf.xsd.double, pricedRow "apple" "2" Rdf.xsd.integer,
    pricedRow "pear" "2" Rdf.xsd.integer]

theorem answer_equalPrices : equalPrices.answer market = .ok ⟨["a", "x"], equalPricesRows⟩ := by
  decide

theorem answer_exact_market :
    market.triples.Nodup ∧
    (∀ name ∈ equalPrices.projected, ∃ p ∈ equalPrices.patterns, .variable name ∈ p.terms) ∧
    ∃ ms : List Match, (ms.Nodup ∧ ∀ m, m ∈ ms ↔ market.IsMatch equalPrices.patterns m) ∧
      List.Forall₂ (fun m row => m.IsRow ["a", "x"] row) ms equalPricesRows := by
  have hmarket : market.triples.Nodup := Rdf.Graph.nodup_ofList _
  have hbound : ∀ name ∈ equalPrices.projected,
      ∃ p ∈ equalPrices.patterns, .variable name ∈ p.terms := by decide
  obtain ⟨ms, rows, -, hms, hrows, hanswer, -⟩ :=
    (SelectQuery.answer_exact equalPrices hmarket).2 hbound
  cases hanswer.symm.trans answer_equalPrices
  exact ⟨hmarket, hbound, ms, hms, hrows⟩

/-! ### The order of patterns -/

namespace SelectQuery

variable {q q' : SelectQuery} {g : Rdf.Graph}

/-- Each match has a row in either order. -/
theorem exists_allRows_perm (hpatterns : q'.patterns.Perm q.patterns)
    (hprojected : q'.projected = q.projected) (h : ∀ name ∈ q.projected, name ∈ q.mentioned)
    (h' : ∀ name ∈ q'.projected, name ∈ q'.mentioned) (g : Rdf.Graph) :
    ∃ rows, rows.Perm (q'.allRows g) ∧
      List.Forall₂ (fun row row' => ∃ m, g.IsMatch q.patterns m ∧ m.IsRow q.projected row ∧
        m.IsRow q.projected row') (q.allRows g) rows := by
  obtain ⟨ms, hms, hrows⟩ := exists_matches_allRows h g
  obtain ⟨ms', hms', hrows'⟩ := exists_matches_allRows h' g
  obtain ⟨ns, hns, hperm⟩ := g.exists_matches_perm hpatterns.symm
  -- the matches of the rows, then the same matches in the other order, then their rows
  obtain ⟨ns, hperm, hns'⟩ := List.perm_comp_forall₂ hms hperm
  obtain ⟨rows, hrows', hperm'⟩ :=
    List.perm_comp_forall₂ ((hns'.trans hns).trans hms'.symm) hrows'
  have hmatch : ∀ m ∈ ms, g.IsMatch q.patterns m := fun m hm =>
    Rdf.Graph.mem_matches.mp (hms.subset hm)
  have hother : List.Forall₂ (fun m row => m.IsRow q.projected row) ms rows :=
    forall₂_comp (fun m n row hmn hrow => hprojected ▸ hrow.perm hmn.symm) hperm hrows'
  exact ⟨rows, hperm', forall₂_comp (fun row m row' ⟨hm, hrow⟩ hrow' => ⟨m, hm, hrow, hrow'⟩)
    ((List.forall₂_and_left _ _).mpr ⟨hmatch, hrows⟩).flip hother⟩

theorem mem_rows {rows : List (List (Option Rdf.Term))} {row : List (Option Rdf.Term)}
    (distinct : Bool) : row ∈ (if distinct then rows.eraseDups else rows) ↔ row ∈ rows := by
  cases distinct
  · rfl
  · exact List.mem_eraseDups

theorem rows_perm {rows rows' : List (List (Option Rdf.Term))} (h : rows.Perm rows')
    (distinct : Bool) : (if distinct then rows.eraseDups else rows).Perm
      (if distinct then rows'.eraseDups else rows') := by
  cases distinct
  · exact h
  · exact (List.perm_ext_iff_of_nodup (nodup_eraseDups _) (nodup_eraseDups _)).mpr fun row => by
      rw [List.mem_eraseDups, List.mem_eraseDups, h.mem_iff]

/-- **In another order, patterns have the same rows up to texts of numbers**, and the same rows if
no number that is shown is written in two ways. -/
theorem answer_perm (hpatterns : q'.patterns.Perm q.patterns)
    (hprojected : q'.projected = q.projected) (hdistinct : q'.isDistinct = q.isDistinct)
    (g : Rdf.Graph) :
    (∃ fault, q.answer g = .error fault ∧ q'.answer g = .error fault) ∨
    ∃ rows rows', q.answer g = .ok ⟨q.projected, rows⟩ ∧ q'.answer g = .ok ⟨q.projected, rows'⟩ ∧
      (q.isDistinct = false → ∃ sorted, sorted.Perm rows' ∧ List.Forall₂ SameCells rows sorted) ∧
      (∀ row ∈ rows, ∃ row' ∈ rows', SameCells row row') ∧
      (∀ row' ∈ rows', ∃ row ∈ rows, SameCells row row') ∧
      (g.ShowsOneTerm q.patterns q.projected → rows'.Perm rows) := by
  have hmentioned : ∀ name, name ∈ q'.mentioned ↔ name ∈ q.mentioned := fun name => by
    simp only [mem_mentioned, hpatterns.mem_iff]
  by_cases h : ∀ name ∈ q.projected, name ∈ q.mentioned
  · right
    have h' : ∀ name ∈ q'.projected, name ∈ q'.mentioned := fun name hname =>
      (hmentioned name).mpr (h name (hprojected ▸ hname))
    obtain ⟨sorted, hsorted, hrows⟩ := exists_allRows_perm hpatterns hprojected h h' g
    have hsame : List.Forall₂ SameCells (q.allRows g) sorted :=
      hrows.imp fun row row' ⟨m, _, hrow, hrow'⟩ => hrow.sameCells hrow'
    refine ⟨_, _, answer_eq_ok h g, hprojected ▸ hdistinct ▸ answer_eq_ok h' g, ?_, ?_, ?_, ?_⟩
    · intro hall
      rw [hall]
      exact ⟨sorted, hsorted, hsame⟩
    · intro row hrow
      obtain ⟨row', hrow', h⟩ := exists_of_forall₂_left hsame ((mem_rows _).mp hrow)
      exact ⟨row', (mem_rows _).mpr (hsorted.subset hrow'), h⟩
    · intro row' hrow'
      obtain ⟨row, hrow, h⟩ :=
        exists_of_forall₂_right hsame (hsorted.symm.subset ((mem_rows _).mp hrow'))
      exact ⟨row, (mem_rows _).mpr hrow, h⟩
    · intro hone
      have heq : q.allRows g = sorted := by
        rw [← List.forall₂_eq_eq_eq]
        exact hrows.imp fun row row' ⟨m, hm, hrow, hrow'⟩ => hrow.eq_of_one hrow' (hone m hm)
      exact rows_perm (heq ▸ hsorted.symm) _
  · left
    push Not at h
    obtain ⟨name, hname, hunbound⟩ := h
    obtain ⟨unbound, -, -, hunbound⟩ := exists_unbound hname hunbound
    refine ⟨_, answer_eq_error hunbound g, answer_eq_error ?_ g⟩
    simp only [hprojected, hmentioned, hunbound]

end SelectQuery

/-- The same query with its patterns in the other order. -/
def equalPricesSwapped : SelectQuery :=
  { equalPrices with patterns := equalPrices.patterns.reverse }

/-- In this order, a good is found with its own price, once for each good of that price. -/
def equalPricesSwappedRows : List (List (Option Rdf.Term)) :=
  [pricedRow "fig" "3" Rdf.xsd.integer, pricedRow "apple" "2.0" Rdf.xsd.double,
    pricedRow "apple" "2.0" Rdf.xsd.double, pricedRow "pear" "2" Rdf.xsd.integer,
    pricedRow "pear" "2" Rdf.xsd.integer]

theorem answer_equalPricesSwapped :
    equalPricesSwapped.answer market = .ok ⟨["a", "x"], equalPricesSwappedRows⟩ := by
  decide

theorem answer_perm_market :
    equalPricesSwapped.patterns.Perm equalPrices.patterns ∧
    equalPricesSwapped.projected = equalPrices.projected ∧
    equalPricesSwapped.isDistinct = equalPrices.isDistinct ∧
    ∃ sorted, sorted.Perm equalPricesSwappedRows ∧
      List.Forall₂ SameCells equalPricesRows sorted := by
  have hpatterns : equalPricesSwapped.patterns.Perm equalPrices.patterns := List.reverse_perm _
  refine ⟨hpatterns, rfl, rfl, ?_⟩
  rcases SelectQuery.answer_perm hpatterns rfl rfl market with
    ⟨_, hfault, -⟩ | ⟨rows, rows', hrows, hrows', hsame, -⟩
  · cases hfault.symm.trans answer_equalPrices
  · cases hrows.symm.trans answer_equalPrices
    cases hrows'.symm.trans answer_equalPricesSwapped
    exact hsame rfl

/-- The orders of the patterns do not have the same rows. -/
theorem answer_market_not_perm :
    equalPricesSwapped.patterns.Perm equalPrices.patterns ∧
    equalPricesSwapped.projected = equalPrices.projected ∧
    equalPricesSwapped.isDistinct = equalPrices.isDistinct ∧
    equalPrices.answer market = .ok ⟨["a", "x"], equalPricesRows⟩ ∧
    equalPricesSwapped.answer market = .ok ⟨["a", "x"], equalPricesSwappedRows⟩ ∧
    ¬equalPricesSwappedRows.Perm equalPricesRows :=
  ⟨List.reverse_perm _, rfl, rfl, answer_equalPrices, answer_equalPricesSwapped, by decide⟩

end Ontology
