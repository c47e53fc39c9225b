import Ontology.Proofs.QueryTerms

/-!
# Reading queries is exact

Each function that reads a part of a query is described by one step first.  From that it follows, by
recursion on what is left, that what has been read is written in the notation, and by induction on
the notation that it is read up to what follows it.

## Main results

* `SelectQuery.exists_of_reads_block`, `SelectQuery.reads_block` — blocks.
* `SelectQuery.exists_of_groupPatterns`, `SelectQuery.groupPatterns_tokens` — groups.
* `SelectQuery.exists_of_declarations`, `SelectQuery.declarations_tokens` — declarations.
* `SelectQuery.ofTokens_exact` — **what is read are the queries, each as what it means, and writing
  them out makes no difference.**
-/

namespace Ontology

namespace SelectQuery

/-! ### Blocks -/

/-- One step of reading objects. -/
theorem reads_objectPatterns_iff {n : QueryNames} {s p : PatternTerm} {left rest : List QueryToken}
    {ps : List TriplePattern} :
    Reads (objectPatterns n s p) left ps rest ↔ ∃ o mid, Reads (object n) left o mid ∧
      ((∃ next others, mid = .comma :: next ∧ Reads (objectPatterns n s p) next others rest ∧
        ps = ⟨s, p, o⟩ :: others) ∨
      (∀ next, mid ≠ .comma :: next) ∧ mid = rest ∧ ps = [⟨s, p, o⟩]) := by
  constructor
  · rintro ⟨hrest, h⟩
    rw [objectPatterns] at h
    obtain ⟨⟨o, mid, hmid⟩, ho, h⟩ := exists_of_bind_eq_ok h
    refine ⟨o, mid, ⟨hmid, ho⟩, ?_⟩
    dsimp only at h
    split at h
    · obtain ⟨⟨others, rest', hrest'⟩, hothers, h⟩ := exists_of_bind_eq_ok h
      cases h
      exact .inl ⟨_, others, rfl, ⟨_, hothers⟩, rfl⟩
    · next hcomma =>
      cases h
      refine .inr ⟨?_, rfl, rfl⟩
      rintro next rfl
      exact hcomma _ hmid rfl HEq.rfl
  · rintro ⟨o, mid, ⟨hmid, ho⟩, ⟨next, others, rfl, ⟨hrest, hothers⟩, rfl⟩ | ⟨hcomma, rfl, rfl⟩⟩
    · refine ⟨by simp at hmid; omega, ?_⟩
      rw [objectPatterns]
      refine bind_eq_ok_iff.mpr ⟨_, ho, ?_⟩
      exact bind_eq_ok_iff.mpr ⟨_, hothers, rfl⟩
    · refine ⟨hmid, ?_⟩
      rw [objectPatterns]
      refine bind_eq_ok_iff.mpr ⟨_, ho, ?_⟩
      simp only
      split
      · exact absurd rfl (hcomma _)
      · rfl

/-- What has been read as objects are objects with commas between. -/
theorem exists_of_reads_objectPatterns {n : QueryNames} {S : SubjectNotation}
    {P : PredicateNotation} {s p : PatternTerm} (hs : S.Means n s) (hp : P.Means n p)
    {left rest : List QueryToken} {ps : List TriplePattern}
    (h : Reads (objectPatterns n s p) left ps rest) :
    ∃ os : Separated ObjectNotation, left = os.tokens .comma ObjectNotation.tokens ++ rest ∧
      List.Forall₂ (TripleNotation.Means n) (PropertyNotation.triples S ⟨P, os⟩) ps := by
  obtain ⟨o, mid, ho, ⟨next, others, rfl, hothers, rfl⟩ | ⟨-, rfl, rfl⟩⟩ :=
    reads_objectPatterns_iff.mp h
  · have hnext : next.length < left.length := Nat.lt_of_succ_lt ho.1
    obtain ⟨x, hleft, hx⟩ := exists_of_reads_object ho
    obtain ⟨os, rfl, hos⟩ := exists_of_reads_objectPatterns hs hp hothers
    refine ⟨.more x os, ?_, .cons ⟨hs, hp, hx⟩ hos⟩
    rw [hleft, Separated.tokens, List.append_assoc]
    rfl
  · obtain ⟨x, hleft, hx⟩ := exists_of_reads_object ho
    exact ⟨.last x, hleft, .cons ⟨hs, hp, hx⟩ .nil⟩
termination_by left.length

/-- Objects with commas between are read up to what is behind their property. -/
theorem reads_objectPatterns {n : QueryNames} {S : SubjectNotation} {P : PredicateNotation}
    {s p : PatternTerm} (hs : S.Means n s) (hp : P.Means n p) {os : Separated ObjectNotation}
    {rest : List QueryToken} (hrest : StartsWith [.semicolon, .dot, .rightBrace] rest)
    {ps : List TriplePattern}
    (h : List.Forall₂ (TripleNotation.Means n) (PropertyNotation.triples S ⟨P, os⟩) ps) :
    Reads (objectPatterns n s p) (os.tokens .comma ObjectNotation.tokens ++ rest) ps rest := by
  -- Along the notation: a comma ends each object but the last one.
  induction os generalizing ps with
  | last x =>
    change List.Forall₂ (TripleNotation.Means n) [⟨S, P, x⟩] ps at h
    cases h with
    | cons hx hnil =>
      cases hnil
      obtain ⟨o, ho, rfl⟩ := hx.exists_object hs hp
      have hread : Reads (object n) (x.tokens ++ rest) o rest :=
        reads_object (hrest.mono (List.subset_cons_self _ _)) ho
      refine reads_objectPatterns_iff.mpr ⟨o, rest, hread, .inr ⟨?_, rfl, rfl⟩⟩
      exact fun _ => hrest.ne_cons (by simp)
  | more x os ih =>
    change List.Forall₂ (TripleNotation.Means n)
      (⟨S, P, x⟩ :: PropertyNotation.triples S ⟨P, os⟩) ps at h
    cases h with
    | cons hx hos =>
      obtain ⟨o, ho, rfl⟩ := hx.exists_object hs hp
      rw [Separated.tokens, List.append_assoc]
      exact reads_objectPatterns_iff.mpr ⟨o, _,
        reads_object (startsWith_cons.mpr (by simp)) ho, .inl ⟨_, _, rfl, ih hos, rfl⟩⟩

theorem startsWith_block_end_iff {r : List QueryToken} :
    StartsWith [.dot, .rightBrace] r ↔ r.head? = some .dot ∨ r.head? = some .rightBrace := by
  cases r with
  | nil => simp [StartsWith]
  | cons t next => simp

/-- One step of reading the properties of a subject. -/
theorem reads_subjectPatterns_iff {n : QueryNames} {s : PatternTerm} {left rest : List QueryToken}
    {ps : List TriplePattern} :
    Reads (subjectPatterns n s) left ps rest ↔ ∃ p mid front after, Reads (predicate n) left p mid ∧
      Reads (objectPatterns n s p) mid front after ∧
      ((∃ next, after = .semicolon :: next ∧ StartsWith [.dot, .rightBrace] next ∧ next = rest ∧
          ps = front) ∨
        (∃ next others, after = .semicolon :: next ∧ ¬ StartsWith [.dot, .rightBrace] next ∧
          Reads (subjectPatterns n s) next others rest ∧ ps = front ++ others) ∨
        (∀ next, after ≠ .semicolon :: next) ∧ after = rest ∧ ps = front) := by
  constructor
  · rintro ⟨hrest, h⟩
    rw [subjectPatterns] at h
    obtain ⟨⟨p, mid, hmid⟩, hp, h⟩ := exists_of_bind_eq_ok h
    obtain ⟨⟨front, after, hafter⟩, hfront, h⟩ := exists_of_bind_eq_ok h
    refine ⟨p, mid, front, after, ⟨hmid, hp⟩, ⟨hafter, hfront⟩, ?_⟩
    dsimp only at h
    split at h
    · split at h
      · next hend =>
        cases h
        exact .inl ⟨_, rfl, startsWith_block_end_iff.mpr hend, rfl, rfl⟩
      · next hend =>
        obtain ⟨⟨others, rest', hrest'⟩, hothers, h⟩ := exists_of_bind_eq_ok h
        cases h
        exact .inr (.inl ⟨_, others, rfl, fun h' => hend (startsWith_block_end_iff.mp h'),
          ⟨hrest', hothers⟩, rfl⟩)
    · next hsemicolon =>
      cases h
      refine .inr (.inr ⟨?_, rfl, rfl⟩)
      rintro next rfl
      exact hsemicolon _ hafter rfl HEq.rfl
  · rintro ⟨p, mid, front, after, ⟨hmid, hp⟩, ⟨hafter, hfront⟩, hmore⟩
    unfold Reads
    rw [subjectPatterns, hp]
    simp only [bind, Except.bind, hfront]
    rcases hmore with ⟨next, rfl, hend, rfl, rfl⟩ | ⟨next, others, rfl, hend, hothers, rfl⟩ |
      ⟨hsemicolon, rfl, rfl⟩
    · exact ⟨by grind, if_pos (startsWith_block_end_iff.mp hend)⟩
    · obtain ⟨hrest, hothers⟩ := hothers
      refine ⟨by grind, ?_⟩
      simp only
      rw [if_neg (mt startsWith_block_end_iff.mpr hend), hothers]
      rfl
    · refine ⟨by omega, ?_⟩
      split
      · exact absurd rfl (hsemicolon _)
      · rfl

/-- What has been read as properties of a subject are properties with semicolons between. -/
theorem exists_of_reads_subjectPatterns {n : QueryNames} {S : SubjectNotation} {s : PatternTerm}
    (hs : S.Means n s) {left rest : List QueryToken} {ps : List TriplePattern}
    (h : Reads (subjectPatterns n s) left ps rest) :
    ∃ (xs : Separated PropertyNotation) (hasSemicolon : Bool),
      left = xs.tokens .semicolon PropertyNotation.tokens ++
        ((if hasSemicolon then [.semicolon] else []) ++ rest) ∧
      List.Forall₂ (TripleNotation.Means n)
        (xs.toList.flatMap (PropertyNotation.triples S)) ps := by
  obtain ⟨p, mid, front, after, hp, hfront, hmore⟩ := reads_subjectPatterns_iff.mp h
  have hshort : after.length < left.length := Nat.lt_trans hfront.1 hp.1
  obtain ⟨P, hleft, hP⟩ := reads_predicate_iff.mp hp
  obtain ⟨os, rfl, hos⟩ := exists_of_reads_objectPatterns hs hP hfront
  rcases hmore with ⟨next, rfl, -, rfl, rfl⟩ | ⟨next, others, rfl, -, hothers, rfl⟩ | ⟨-, rfl, rfl⟩
  · exact ⟨.last ⟨P, os⟩, true, hleft, by rwa [Separated.toList, List.flatMap_singleton]⟩
  · have hnext : next.length < left.length := Nat.lt_of_succ_lt hshort
    obtain ⟨xs, hasSemicolon, rfl, hxs⟩ := exists_of_reads_subjectPatterns hs hothers
    refine ⟨.more ⟨P, os⟩ xs, hasSemicolon, ?_, List.rel_append hos hxs⟩
    rw [Separated.tokens, List.append_assoc]
    exact hleft
  · exact ⟨.last ⟨P, os⟩, false, hleft, by rwa [Separated.toList, List.flatMap_singleton]⟩
termination_by left.length

/-- Properties with semicolons between are read up to what is behind their block. -/
theorem reads_subjectPatterns {n : QueryNames} {S : SubjectNotation} {s : PatternTerm}
    (hs : S.Means n s) {xs : Separated PropertyNotation} {hasSemicolon : Bool}
    {rest : List QueryToken} (hrest : StartsWith [.dot, .rightBrace] rest)
    {ps : List TriplePattern}
    (h : List.Forall₂ (TripleNotation.Means n)
      (xs.toList.flatMap (PropertyNotation.triples S)) ps) :
    Reads (subjectPatterns n s) (xs.tokens .semicolon PropertyNotation.tokens ++
      ((if hasSemicolon then [.semicolon] else []) ++ rest)) ps rest := by
  induction xs generalizing ps with
  | last x =>
    rw [Separated.toList, List.flatMap_singleton] at h
    obtain ⟨-, p, -, hp⟩ := PropertyNotation.exists_means h
    obtain ⟨hends, hnomore⟩ := PropertyNotation.follows_of_ends hasSemicolon hrest
    refine reads_subjectPatterns_iff.mpr ⟨p, _, ps, _, reads_predicate_iff.mpr ⟨_, rfl, hp⟩,
      reads_objectPatterns hs hp hends h, ?_⟩
    cases hasSemicolon with
    | true => exact .inl ⟨rest, rfl, hrest, rfl, rfl⟩
    | false => exact .inr (.inr ⟨fun _ => hrest.ne_cons (by simp), rfl, rfl⟩)
  | more x xs ih =>
    obtain ⟨front, others, hx, hxs, rfl⟩ := exists_of_forall₂_append h
    obtain ⟨-, p, -, hp⟩ := PropertyNotation.exists_means hx
    have hothers := ih hxs
    rw [Separated.tokens, List.append_assoc, List.cons_append]
    refine reads_subjectPatterns_iff.mpr ⟨p, _, front, _, reads_predicate_iff.mpr ⟨_, rfl, hp⟩,
      reads_objectPatterns hs hp (startsWith_cons.mpr (by simp)) hx, ?_⟩
    -- Behind this semicolon the next property starts, so it is not the one in front of the end.
    refine .inr (.inl ⟨_, others, rfl, ?_, hothers, rfl⟩)
    obtain ⟨x', next, hnext⟩ := xs.exists_tokens_eq
    rw [hnext]
    exact x'.predicate.not_startsWith_token

/-- What has been read as a subject and its properties is a block. -/
theorem exists_of_reads_block {n : QueryNames} {s : PatternTerm} {left mid rest : List QueryToken}
    {ps : List TriplePattern} (hs : Reads (subject n) left s mid)
    (h : Reads (subjectPatterns n s) mid ps rest) :
    ∃ b : BlockNotation, left = b.tokens ++ rest ∧
      List.Forall₂ (TripleNotation.Means n) b.triples ps := by
  obtain ⟨S, rfl, hS⟩ := reads_subject_iff.mp hs
  obtain ⟨xs, hasSemicolon, rfl, hxs⟩ := exists_of_reads_subjectPatterns hS h
  refine ⟨⟨S, xs, hasSemicolon⟩, ?_, hxs⟩
  rw [BlockNotation.tokens, List.cons_append, List.append_assoc]

/-- A block is read up to what follows it. -/
theorem reads_block {n : QueryNames} {b : BlockNotation} {rest : List QueryToken}
    (hrest : StartsWith [.dot, .rightBrace] rest) {ps : List TriplePattern}
    (h : List.Forall₂ (TripleNotation.Means n) b.triples ps) :
    ∃ s mid, Reads (subject n) (b.tokens ++ rest) s mid ∧
      Reads (subjectPatterns n s) mid ps rest := by
  obtain ⟨S, xs, hasSemicolon⟩ := b
  obtain ⟨s, hs⟩ : ∃ s, S.Means n s := by
    cases xs with
    | last x | more x xs =>
      obtain ⟨front, _, hx, -⟩ := exists_of_forall₂_append h
      obtain ⟨s, -, hs, -⟩ := PropertyNotation.exists_means hx
      exact ⟨s, hs⟩
  rw [BlockNotation.tokens, List.cons_append, List.append_assoc]
  exact ⟨s, _, reads_subject_iff.mpr ⟨S, rfl, hs⟩, reads_subjectPatterns hs hrest h⟩

/-! ### Groups -/

/-- One step of reading a group. -/
theorem groupPatterns_eq_ok_iff {n : QueryNames} {left rest : List QueryToken}
    {ps : List TriplePattern} :
    groupPatterns n left = .ok (ps, rest) ↔ left = .rightBrace :: rest ∧ ps = [] ∨
      ∃ s mid front after, Reads (subject n) left s mid ∧
        Reads (subjectPatterns n s) mid front after ∧
        ((∃ next others, after = .dot :: next ∧ groupPatterns n next = .ok (others, rest) ∧
            ps = front ++ others) ∨
          after = .rightBrace :: rest ∧ ps = front) := by
  constructor
  · intro h
    rw [groupPatterns.eq_def] at h
    split at h
    · cases h
      exact .inl ⟨rfl, rfl⟩
    · obtain ⟨⟨s, mid, hmid⟩, hs, h⟩ := exists_of_bind_eq_ok h
      obtain ⟨⟨front, after, hafter⟩, hfront, h⟩ := exists_of_bind_eq_ok h
      refine .inr ⟨s, mid, front, after, ⟨hmid, hs⟩, ⟨hafter, hfront⟩, ?_⟩
      dsimp only at h
      split at h
      · obtain ⟨⟨others, rest'⟩, hothers, h⟩ := exists_of_bind_eq_ok h
        cases h
        exact .inl ⟨_, others, rfl, hothers, rfl⟩
      · cases h
        exact .inr ⟨rfl, rfl⟩
      · exact absurd h fail_ne_ok
  · rintro (⟨rfl, rfl⟩ | ⟨s, mid, front, after, hsubject, hfront, hmore⟩)
    · rw [groupPatterns]
    · obtain ⟨x, rfl, -⟩ := reads_subject_iff.mp hsubject
      obtain ⟨hmid, hs⟩ := hsubject
      obtain ⟨hafter, hfront⟩ := hfront
      rw [groupPatterns, hs]
      · simp only [bind, Except.bind, hfront]
        rcases hmore with ⟨next, others, rfl, hothers, rfl⟩ | ⟨rfl, rfl⟩
        · simp only [hothers]
          rfl
        · rfl
      · intro next heq
        exact x.token_ne_rightBrace (List.cons.inj heq).1

/-- What has been read up to the brace is a group. -/
theorem exists_of_groupPatterns {n : QueryNames} {left rest : List QueryToken}
    {ps : List TriplePattern} (h : groupPatterns n left = .ok (ps, rest)) :
    ∃ g : GroupNotation, left = g.tokens ++ .rightBrace :: rest ∧
      List.Forall₂ (TripleNotation.Means n) g.triples ps := by
  obtain ⟨rfl, rfl⟩ | ⟨s, mid, front, after, hs, hfront, hmore⟩ := groupPatterns_eq_ok_iff.mp h
  · exact ⟨.empty, rfl, .nil⟩
  · have hshort : after.length < left.length := Nat.lt_trans hfront.1 hs.1
    obtain ⟨b, hleft, hb⟩ := exists_of_reads_block hs hfront
    rcases hmore with ⟨next, others, rfl, hothers, rfl⟩ | ⟨rfl, rfl⟩
    · have hnext : next.length < left.length := Nat.lt_of_succ_lt hshort
      obtain ⟨g, rfl, hg⟩ := exists_of_groupPatterns hothers
      -- The point stands behind the last block, or between two of them.
      cases g with
      | empty =>
        cases hg
        refine ⟨.blocks (.last b) true, ?_, ?_⟩
        · rw [hleft, GroupNotation.tokens_last, List.append_assoc]
          rfl
        · rwa [GroupNotation.triples_last, List.append_nil]
      | blocks bs hasPoint =>
        refine ⟨.blocks (.more b bs) hasPoint, ?_, List.rel_append hb hg⟩
        rw [hleft, GroupNotation.tokens_more, List.append_assoc, List.cons_append]
    · refine ⟨.blocks (.last b) false, ?_, ?_⟩
      · rw [hleft, GroupNotation.tokens_last, List.append_assoc]
        rfl
      · rwa [GroupNotation.triples_last]
termination_by left.length

/-- A group is read up to its brace. -/
theorem groupPatterns_tokens {n : QueryNames} {g : GroupNotation} {ps : List TriplePattern}
    {rest : List QueryToken} (h : List.Forall₂ (TripleNotation.Means n) g.triples ps) :
    groupPatterns n (g.tokens ++ .rightBrace :: rest) = .ok (ps, rest) := by
  cases g with
  | empty =>
    cases h
    exact groupPatterns_eq_ok_iff.mpr (.inl ⟨rfl, rfl⟩)
  | blocks bs hasPoint =>
    induction bs generalizing ps with
    | last b =>
      rw [GroupNotation.triples_last] at h
      rw [GroupNotation.tokens_last, List.append_assoc]
      obtain ⟨s, mid, hs, hps⟩ := reads_block (BlockNotation.follows_of_point hasPoint rest).1 h
      refine groupPatterns_eq_ok_iff.mpr (.inr ⟨s, mid, ps, _, hs, hps, ?_⟩)
      cases hasPoint with
      | false => exact .inr ⟨rfl, rfl⟩
      | true =>
        refine .inl ⟨.rightBrace :: rest, [], rfl, ?_, (List.append_nil _).symm⟩
        exact groupPatterns_eq_ok_iff.mpr (.inl ⟨rfl, rfl⟩)
    | more b bs ih =>
      rw [GroupNotation.triples_more] at h
      rw [GroupNotation.tokens_more, List.append_assoc, List.cons_append]
      obtain ⟨front, others, hb, hbs, rfl⟩ := exists_of_forall₂_append h
      have hpoint : ∀ next, StartsWith [.dot, .rightBrace] (.dot :: next) :=
        fun _ => startsWith_cons.mpr List.mem_cons_self
      obtain ⟨s, mid, hs, hfront⟩ := reads_block (hpoint _) hb
      exact groupPatterns_eq_ok_iff.mpr (.inr ⟨s, mid, front, _, hs, hfront,
        .inl ⟨_, others, rfl, ih hbs, rfl⟩⟩)

/-! ### Declarations -/

/-- The name of a space is followed by a colon. -/
theorem spaceName?_eq_some_iff {t : QueryToken} {name : String} :
    spaceName? t = some name ↔ t = .shortened (name ++ ":") := by
  constructor
  · intro h
    unfold spaceName? at h
    split at h
    · next text =>
      split at h
      · next rest hreverse =>
        cases h
        have htext : text.toList = rest.reverse ++ [':'] := by
          rw [← List.reverse_cons, ← hreverse, List.reverse_reverse]
        rw [QueryToken.shortened.injEq, ← String.toList_inj, htext, String.toList_append,
          String.toList_ofList]
        rfl
      · cases h
    · cases h
  · rintro rfl
    have hreverse : (name ++ ":").toList.reverse = ':' :: name.toList.reverse := by
      rw [String.toList_append, List.reverse_append]
      rfl
    simp only [spaceName?, hreverse, List.reverse_reverse, String.ofList_toList]

/-- What has been read in front of a query are declarations. -/
theorem exists_of_declarations {n n' : QueryNames} {declared declared' : List (String × String)}
    {left rest : List QueryToken} (h : declarations n declared left = .ok (n', declared', rest)) :
    ∃ ds rows, left = ds.flatMap DeclarationNotation.tokens ++ rest ∧
      DeclarationNotation.Declares n ds rows n' ∧
      declared' = rows.foldl (fun declared row => declare declared row.1 row.2) declared := by
  fun_induction declarations n declared left with
  | case1 n declared t reference left name hname ih =>
    obtain rfl := spaceName?_eq_some_iff.mp hname
    obtain ⟨iri, hiri, h⟩ := exists_of_bind_eq_ok h
    obtain ⟨ds, rows, rfl, hds, hrows⟩ := ih iri h
    have hnames : (NameNotation.reference reference).Names n iri :=
      NameNotation.read_eq_ok_iff.mp hiri
    exact ⟨.space name reference :: ds, (name, iri) :: rows, rfl, .space hnames hds, hrows⟩
  | case6 n declared reference left ih =>
    obtain ⟨iri, hiri, h⟩ := exists_of_bind_eq_ok h
    obtain ⟨ds, rows, rfl, hds, hrows⟩ := ih iri h
    have hnames : (NameNotation.reference reference).Names n iri :=
      NameNotation.read_eq_ok_iff.mp hiri
    exact ⟨.base reference :: ds, rows, rfl, .base hnames hds, hrows⟩
  | case8 n declared left =>
    cases h
    exact ⟨[], [], rfl, .nil _, rfl⟩
  | case2 | case3 | case4 | case5 | case7 => exact absurd h fail_ne_ok

/-- Declarations are read up to the query. -/
theorem declarations_tokens {n n' : QueryNames} {ds : List DeclarationNotation}
    {rows : List (String × String)} (h : DeclarationNotation.Declares n ds rows n')
    (declared : List (String × String)) (rest : List QueryToken) :
    declarations n declared (ds.flatMap DeclarationNotation.tokens ++ .selectWord :: rest) =
      .ok (n', rows.foldl (fun declared row => declare declared row.1 row.2) declared,
        .selectWord :: rest) := by
  induction h generalizing declared with
  | nil n => rfl
  | @space n n' name reference iri ds rows hiri h ih =>
    have hname : spaceName? (.shortened (name ++ ":")) = some name :=
      spaceName?_eq_some_iff.mpr rfl
    have hread := NameNotation.read_eq_ok_iff.mpr hiri
    simp only [List.flatMap_cons, DeclarationNotation.tokens, List.cons_append, List.nil_append,
      declarations, hname]
    exact bind_eq_ok_iff.mpr ⟨iri, hread, ih _⟩
  | @base n n' reference iri ds rows hiri h ih =>
    have hread := NameNotation.read_eq_ok_iff.mpr hiri
    simp only [List.flatMap_cons, DeclarationNotation.tokens, List.cons_append, List.nil_append,
      declarations]
    exact bind_eq_ok_iff.mpr ⟨iri, hread, ih _⟩

/-! ### Queries -/

/-- A word that may be left out has been read or not. -/
theorem accept_append (t : QueryToken) (left : List QueryToken) :
    (if (accept t left).1 then [t] else []) ++ (accept t left).2 = left := by
  unfold accept
  split
  · next hhead =>
    obtain ⟨next, rfl⟩ := List.head?_eq_some_iff.mp hhead
    rfl
  · rfl

theorem eq_cons_of_accept {t : QueryToken} {left rest : List QueryToken}
    (h : accept t left = (true, rest)) : left = t :: rest := by
  have happend := accept_append t left
  rw [h] at happend
  exact happend.symm

/-- A word that may be left out is read if it is there. -/
theorem accept_optional {t : QueryToken} {rest : List QueryToken} (b : Bool)
    (hrest : ∀ next, rest ≠ t :: next) :
    accept t ((if b then [t] else []) ++ rest) = (b, rest) := by
  unfold accept
  cases b with
  | true => exact if_pos rfl
  | false =>
    refine if_neg fun heq => ?_
    obtain ⟨next, hnext⟩ := List.head?_eq_some_iff.mp heq
    exact hrest next hnext

theorem eq_of_variableNames {left rest : List QueryToken} {names : List String}
    (h : variableNames left = (names, rest)) : left = names.map .variable ++ rest := by
  fun_induction variableNames left generalizing names with
  | case1 v left vs rest' hvs ih =>
    cases h
    rw [ih hvs]
    rfl
  | case2 left =>
    cases h
    rfl

theorem variableNames_map {rest : List QueryToken} (names : List String)
    (hrest : ∀ v next, rest ≠ .variable v :: next) :
    variableNames (names.map .variable ++ rest) = (names, rest) := by
  induction names with
  | nil =>
    rw [List.map_nil, List.nil_append]
    unfold variableNames
    split
    · exact absurd rfl (hrest _ _)
    · rfl
  | cons v names ih => rw [List.map_cons, List.cons_append, variableNames, ih]

theorem exists_of_readProjection {left rest : List QueryToken} {p : Projection}
    (h : readProjection left = .ok (p, rest)) :
    ∃ x : ProjectionNotation, left = x.tokens ++ rest ∧ p = x.projection := by
  unfold readProjection at h
  split at h
  · cases h
    exact ⟨.all, rfl, rfl⟩
  · split at h
    · exact absurd h fail_ne_ok
    · next names rest' hempty hnames =>
      cases h
      cases names with
      | nil => exact absurd rfl hempty
      | cons v names => exact ⟨.named v names, eq_of_variableNames hnames, rfl⟩

theorem readProjection_tokens {rest : List QueryToken} (x : ProjectionNotation)
    (hrest : StartsWith [.whereWord, .leftBrace] rest) :
    readProjection (x.tokens ++ rest) = .ok (x.projection, rest) := by
  cases x with
  | all => rfl
  | named v vs =>
    have hnames := variableNames_map (v :: vs) fun v next => hrest.ne_cons (by simp)
    rw [List.map_cons] at hnames
    simp only [ProjectionNotation.tokens, List.cons_append, readProjection] at hnames ⊢
    rw [hnames]
    rfl

/-- The parts of a query are read one after the other, and nothing is left. -/
theorem ofTokens_eq_ok_iff {spaces : List (String × String)} {ts : List QueryToken}
    {q : SelectQuery} :
    ofTokens spaces ts = .ok q ↔ ∃ n declared left left₁ left₂ left₃ projection patterns,
      declarations { spaces } [] ts = .ok (n, declared, left) ∧
      accept .selectWord left = (true, left₁) ∧
      readProjection (accept .distinctWord left₁).2 = .ok (projection, left₂) ∧
      accept .leftBrace (accept .whereWord left₂).2 = (true, left₃) ∧
      groupPatterns n left₃ = .ok (patterns, []) ∧
      q = { declared, isDistinct := (accept .distinctWord left₁).1, projection, patterns } := by
  constructor
  · intro h
    unfold ofTokens at h
    obtain ⟨⟨n, declared, left⟩, hdeclarations, h⟩ := exists_of_bind_eq_ok h
    dsimp only at h
    split at h
    · exact absurd h fail_ne_ok
    · next left₁ hselect =>
      obtain ⟨⟨projection, left₂⟩, hprojection, h⟩ := exists_of_bind_eq_ok h
      dsimp only at h
      split at h
      · exact absurd h fail_ne_ok
      · next left₃ hbrace =>
        obtain ⟨⟨patterns, left₄⟩, hgroup, h⟩ := exists_of_bind_eq_ok h
        dsimp only at h
        split at h
        · next hempty =>
          obtain rfl := List.isEmpty_iff.mp hempty
          cases h
          exact ⟨n, declared, left, left₁, left₂, left₃, projection, patterns, hdeclarations,
            hselect, hprojection, hbrace, hgroup, rfl⟩
        · exact absurd h fail_ne_ok
  · rintro ⟨n, declared, left, left₁, left₂, left₃, projection, patterns, hdeclarations, hselect,
      hprojection, hbrace, hgroup, rfl⟩
    unfold ofTokens
    refine bind_eq_ok_iff.mpr ⟨_, hdeclarations, ?_⟩
    simp only [hselect]
    refine bind_eq_ok_iff.mpr ⟨_, hprojection, ?_⟩
    simp only [hbrace]
    exact bind_eq_ok_iff.mpr ⟨_, hgroup, rfl⟩

/-- What has been read is a query. -/
theorem exists_of_ofTokens {spaces : List (String × String)} {ts : List QueryToken}
    {q : SelectQuery} (h : ofTokens spaces ts = .ok q) :
    ∃ x : QueryNotation, x.tokens = ts ∧ x.Means spaces q := by
  obtain ⟨n, declared, left, left₁, left₂, left₃, p, patterns, hdeclarations, hselect, hprojection,
    hbrace, hgroup, rfl⟩ := ofTokens_eq_ok_iff.mp h
  obtain ⟨ds, rows, rfl, hds, rfl⟩ := exists_of_declarations hdeclarations
  obtain rfl := eq_cons_of_accept hselect
  obtain ⟨projection, hleft₁, rfl⟩ := exists_of_readProjection hprojection
  have hleft₂ := eq_cons_of_accept hbrace
  obtain ⟨g, rfl, hg⟩ := exists_of_groupPatterns hgroup
  refine ⟨⟨ds, (accept .distinctWord left₁).1, projection, (accept .whereWord left₂).1, g⟩, ?_,
    ⟨n, rows, hds, rfl, hg⟩, rfl, rfl⟩
  rw [QueryNotation.tokens, ← hleft₂, List.append_assoc, List.append_assoc, accept_append, ← hleft₁,
    accept_append]

/-- A query is read as what it means. -/
theorem ofTokens_tokens {spaces : List (String × String)} {x : QueryNotation} {q : SelectQuery}
    (h : x.Means spaces q) : ofTokens spaces x.tokens = .ok q := by
  obtain ⟨⟨n, rows, hds, hrows, hpatterns⟩, hdistinct, hprojection⟩ := h
  -- What is left behind each of the parts.
  obtain ⟨group, hgroup⟩ : ∃ r, r = x.group.tokens ++ [.rightBrace] := ⟨_, rfl⟩
  obtain ⟨body, hbody⟩ : ∃ r, r =
      (if x.hasWhere then [.whereWord] else []) ++ .leftBrace :: group := ⟨_, rfl⟩
  obtain ⟨selection, hselection⟩ : ∃ r, r =
      (if x.isDistinct then [.distinctWord] else []) ++ (x.projection.tokens ++ body) := ⟨_, rfl⟩
  have htokens : x.tokens =
      x.declarations.flatMap DeclarationNotation.tokens ++ .selectWord :: selection := by
    rw [QueryNotation.tokens, hselection, hbody, hgroup, List.append_assoc, List.append_assoc]
  have hacceptDistinct :
      accept .distinctWord selection = (x.isDistinct, x.projection.tokens ++ body) := by
    rw [hselection]
    exact accept_optional x.isDistinct (x.projection.tokens_ne_distinctWord body)
  have hacceptWhere : accept .whereWord body = (x.hasWhere, .leftBrace :: group) := by
    rw [hbody]
    exact accept_optional x.hasWhere fun _ heq => by cases heq
  have hstart : StartsWith [.whereWord, .leftBrace] body := by
    rw [hbody]
    cases x.hasWhere <;> simp
  rw [htokens]
  refine ofTokens_eq_ok_iff.mpr ⟨n, _, _, selection, body, group, x.projection.projection,
    q.patterns, declarations_tokens hds [] selection, if_pos rfl, ?_, ?_, ?_, ?_⟩
  · rw [hacceptDistinct]
    exact readProjection_tokens x.projection hstart
  · rw [hacceptWhere]
    exact if_pos rfl
  · rw [hgroup]
    exact groupPatterns_tokens hpatterns
  · rw [hacceptDistinct, ← hdistinct, ← hprojection]
    obtain ⟨declared, isDistinct, projection, patterns⟩ := q
    cases hrows
    rfl

/-- **Reading queries is exact: what is read are the queries whose names, languages and escapes are
in order, each as what it means.  Writing out a query makes no difference.** -/
theorem ofTokens_exact (spaces : List (String × String)) :
    (∀ ts q, ofTokens spaces ts = .ok q ↔ ∃ x : QueryNotation, x.tokens = ts ∧ x.Means spaces q) ∧
    ∀ (x : QueryNotation) (q : SelectQuery),
      ofTokens spaces x.writtenOut.tokens = .ok q ↔ ofTokens spaces x.tokens = .ok q := by
  have hexact : ∀ ts q, ofTokens spaces ts = .ok q ↔
      ∃ x : QueryNotation, x.tokens = ts ∧ x.Means spaces q := by
    intro ts q
    refine ⟨exists_of_ofTokens, ?_⟩
    rintro ⟨x, rfl, hx⟩
    exact ofTokens_tokens hx
  have hmeans : ∀ (x : QueryNotation) q, ofTokens spaces x.tokens = .ok q ↔ x.Means spaces q := by
    intro x q
    refine ⟨fun h => ?_, ofTokens_tokens⟩
    obtain ⟨y, htokens, hy⟩ := exists_of_ofTokens h
    rwa [QueryNotation.tokens_injective htokens] at hy
  refine ⟨hexact, fun x q => ?_⟩
  calc ofTokens spaces x.writtenOut.tokens = .ok q
    _ ↔ x.writtenOut.Means spaces q := hmeans _ q
    _ ↔ x.Means spaces q := QueryNotation.means_writtenOut
    _ ↔ ofTokens spaces x.tokens = .ok q := (hmeans x q).symm

end SelectQuery

end Ontology
