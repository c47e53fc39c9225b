import Ontology.Proofs.QueryNotation

/-!
# Written queries have one tree

Tokens that follow an element tell where it ends: an object is followed by a comma or by what is
behind its property, a property by a semicolon or by what is behind its block, and a block by a
point or a brace.  Therefore the tokens of a query determine its tree.

## Main definitions

* `EndsItself` — elements that tell where they end.

## Main results

* `Separated.endsItself_tokens` — lists with separators tell where they end if their elements do.
* `QueryNotation.tokens_injective` — **two queries that are written alike are the same.**
-/

namespace Ontology

/-! ### Where elements end -/

/-- How an element is written tells where it ends, if what follows is as said. -/
def EndsItself {α : Type} (follows : List QueryToken → Prop) (f : α → List QueryToken) : Prop :=
  ∀ ⦃a b : α⦄ ⦃r r' : List QueryToken⦄, follows r → follows r' → f a ++ r = f b ++ r' →
    a = b ∧ r = r'

/-- One of some tokens comes first. -/
def StartsWith (ts r : List QueryToken) : Prop :=
  ∃ t ∈ ts, ∃ next, r = t :: next

theorem StartsWith.mono {ts ts' r : List QueryToken} (h : StartsWith ts r) (hts : ts ⊆ ts') :
    StartsWith ts' r := by
  obtain ⟨t, ht, hr⟩ := h
  exact ⟨t, hts ht, hr⟩

@[simp] theorem startsWith_cons {ts r : List QueryToken} {t : QueryToken} :
    StartsWith ts (t :: r) ↔ t ∈ ts := by
  constructor
  · rintro ⟨t', ht', next, heq⟩
    exact (List.cons.inj heq).1 ▸ ht'
  · intro ht
    exact ⟨t, ht, r, rfl⟩

theorem StartsWith.ne_cons {ts r next : List QueryToken} {t : QueryToken} (h : StartsWith ts r)
    (ht : t ∉ ts) : r ≠ t :: next := by
  rintro rfl
  exact ht (startsWith_cons.mp h)

/-- A token that may be left out is there or not, if what follows does not start with it. -/
theorem eq_of_optional {t : QueryToken} {b b' : Bool} {r r' : List QueryToken}
    (hr : ∀ next, r ≠ t :: next) (hr' : ∀ next, r' ≠ t :: next)
    (h : (if b then [t] else []) ++ r = (if b' then [t] else []) ++ r') : b = b' ∧ r = r' := by
  cases b <;> cases b'
  · exact ⟨rfl, h⟩
  · exact absurd h (hr _)
  · exact absurd h.symm (hr' _)
  · exact ⟨rfl, (List.cons.inj h).2⟩

/-- Elements in a row tell where they end, if none starts like what follows them. -/
theorem endsItself_flatMap {α : Type} {f : α → List QueryToken} {ts : List QueryToken}
    (hf : EndsItself (fun _ => True) f) (hts : ∀ a next, ¬ StartsWith ts (f a ++ next)) :
    EndsItself (StartsWith ts) (List.flatMap f) := by
  intro as bs r r' hr hr' h
  induction as generalizing bs with
  | nil =>
    cases bs with
    | nil => exact ⟨rfl, h⟩
    | cons b bs =>
      rw [List.flatMap_nil, List.nil_append, List.flatMap_cons, List.append_assoc] at h
      exact absurd (h ▸ hr) (hts b _)
  | cons a as ih =>
    cases bs with
    | nil =>
      rw [List.flatMap_nil, List.nil_append, List.flatMap_cons, List.append_assoc] at h
      exact absurd (h ▸ hr') (hts a _)
    | cons b bs =>
      rw [List.flatMap_cons, List.flatMap_cons, List.append_assoc, List.append_assoc] at h
      obtain ⟨rfl, hrest⟩ := hf trivial trivial h
      obtain ⟨rfl, rfl⟩ := ih hrest
      exact ⟨rfl, rfl⟩

namespace Separated

variable {α : Type} {separator : QueryToken} {f : α → List QueryToken}

theorem exists_tokens_eq (xs : Separated α) :
    ∃ a next, xs.tokens separator f = f a ++ next := by
  cases xs with
  | last a => exact ⟨a, [], (List.append_nil _).symm⟩
  | more a rest => exact ⟨a, _, rfl⟩

/-- Nothing that follows looks like a further element. -/
def Follows (follows : List QueryToken → Prop) (separator : QueryToken) (f : α → List QueryToken)
    (r : List QueryToken) : Prop :=
  follows r ∧ ∀ a next, r ≠ separator :: (f a ++ next)

theorem endsItself_tokens {follows : List QueryToken → Prop}
    (hseparator : ∀ r, follows (separator :: r)) (hf : EndsItself follows f) :
    EndsItself (Follows follows separator f) (tokens separator f) := by
  have hmore : ∀ {r next : List QueryToken} (xs : Separated α), Follows follows separator f r →
      r ≠ separator :: (xs.tokens separator f ++ next) := by
    intro r next xs hr heq
    obtain ⟨a, next', hxs⟩ := xs.exists_tokens_eq
    rw [hxs, List.append_assoc] at heq
    exact hr.2 _ _ heq
  intro xs ys r r' hr hr' h
  induction xs generalizing ys with
  | last a =>
    cases ys with
    | last b =>
      obtain ⟨rfl, rfl⟩ := hf hr.1 hr'.1 h
      exact ⟨rfl, rfl⟩
    | more b ys =>
      rw [tokens, tokens, List.append_assoc] at h
      exact absurd (hf hr.1 (hseparator _) h).2 (hmore ys hr)
  | more a xs ih =>
    cases ys with
    | last b =>
      rw [tokens, tokens, List.append_assoc] at h
      exact absurd (hf (hseparator _) hr'.1 h).2.symm (hmore xs hr')
    | more b ys =>
      rw [tokens, tokens, List.append_assoc, List.append_assoc] at h
      obtain ⟨rfl, hrest⟩ := hf (hseparator _) (hseparator _) h
      obtain ⟨rfl, rfl⟩ := ih (List.cons.inj hrest).2
      exact ⟨rfl, rfl⟩

end Separated

/-! ### Terms -/

theorem NameNotation.token_injective : Function.Injective NameNotation.token := by
  intro x y h
  cases x <;> cases y <;> cases h <;> rfl

theorem SubjectNotation.token_injective : Function.Injective SubjectNotation.token := by
  rintro (v | x) (w | y) h
  · cases h; rfl
  · cases y <;> cases h
  · cases x <;> cases h
  · rw [NameNotation.token_injective h]

theorem PredicateNotation.token_injective : Function.Injective PredicateNotation.token := by
  rintro (v | x | _) (w | y | _) h
  · cases h; rfl
  · cases y <;> cases h
  · cases h
  · cases x <;> cases h
  · rw [NameNotation.token_injective h]
  · cases x <;> cases h
  · cases h
  · cases y <;> cases h
  · rfl

/-- An object is followed by a comma, or by what is behind its property. -/
theorem ObjectNotation.endsItself_tokens :
    EndsItself (StartsWith [.comma, .semicolon, .dot, .rightBrace]) ObjectNotation.tokens := by
  intro x y r r' hr hr' h
  have hlanguage : ∀ {r tag next}, StartsWith [.comma, .semicolon, .dot, .rightBrace] r →
      r ≠ .language tag :: next := fun hr => hr.ne_cons (by simp)
  have hcaret : ∀ {r next}, StartsWith [.comma, .semicolon, .dot, .rightBrace] r →
      r ≠ .doubleCaret :: next := fun hr => hr.ne_cons (by simp)
  -- The first tokens tell the kinds apart, except that of a text from what may follow it.
  rcases x with v | (_ | _) | raw | ⟨raw, tag⟩ | ⟨raw, (_ | _)⟩ | d | d | d | (_ | _) <;>
    rcases y with w | (_ | _) | raw' | ⟨raw', tag'⟩ | ⟨raw', (_ | _)⟩ | d' | d' | d' | (_ | _) <;>
    simp only [tokens, NameNotation.token, List.cons_append, List.nil_append, List.cons.injEq,
      reduceCtorEq, false_and, and_false] at h
  all_goals grind

/-! ### Blocks -/

theorem PropertyNotation.endsItself_tokens :
    EndsItself (StartsWith [.semicolon, .dot, .rightBrace]) PropertyNotation.tokens := by
  have hfollows : ∀ {r}, StartsWith [.semicolon, .dot, .rightBrace] r →
      Separated.Follows (StartsWith [.comma, .semicolon, .dot, .rightBrace]) .comma
        ObjectNotation.tokens r :=
    fun hr => ⟨hr.mono (List.subset_cons_self _ _), fun _ _ => hr.ne_cons (by simp)⟩
  rintro ⟨p, os⟩ ⟨p', os'⟩ r r' hr hr' h
  obtain ⟨hp, hos⟩ := List.cons.inj h
  obtain rfl := PredicateNotation.token_injective hp
  obtain ⟨rfl, rfl⟩ := Separated.endsItself_tokens (fun _ => startsWith_cons.mpr (by simp))
    ObjectNotation.endsItself_tokens (hfollows hr) (hfollows hr') hos
  exact ⟨rfl, rfl⟩

/-- A predicate is none of the tokens that end a block. -/
theorem PredicateNotation.not_startsWith_token (p : PredicateNotation) {next : List QueryToken} :
    ¬ StartsWith [.dot, .rightBrace] (p.token :: next) := by
  rcases p with v | (_ | _) | _ <;> simp [token, NameNotation.token]

/-- What may follow the properties of a subject: a semicolon without a predicate behind it counts
as a part of the block. -/
theorem PropertyNotation.follows_of_ends {r : List QueryToken} (hasSemicolon : Bool)
    (hr : StartsWith [.dot, .rightBrace] r) :
    Separated.Follows (StartsWith [.semicolon, .dot, .rightBrace]) .semicolon
      PropertyNotation.tokens ((if hasSemicolon then [.semicolon] else []) ++ r) := by
  cases hasSemicolon with
  | false =>
    exact ⟨hr.mono (List.subset_cons_self _ _), fun _ _ => hr.ne_cons (by simp)⟩
  | true =>
    refine ⟨startsWith_cons.mpr (by simp), fun p next heq => ?_⟩
    have hrest : r = p.tokens ++ next := (List.cons.inj heq).2
    rw [hrest] at hr
    exact p.predicate.not_startsWith_token hr

theorem BlockNotation.endsItself_tokens :
    EndsItself (StartsWith [.dot, .rightBrace]) BlockNotation.tokens := by
  rintro ⟨s, ps, hasSemicolon⟩ ⟨s', ps', hasSemicolon'⟩ r r' hr hr' h
  obtain ⟨hs, hps⟩ := List.cons.inj h
  obtain rfl := SubjectNotation.token_injective hs
  simp only [List.append_eq, List.append_assoc] at hps
  obtain ⟨rfl, hrest⟩ := Separated.endsItself_tokens (fun _ => startsWith_cons.mpr (by simp))
    PropertyNotation.endsItself_tokens (PropertyNotation.follows_of_ends hasSemicolon hr)
    (PropertyNotation.follows_of_ends hasSemicolon' hr') hps
  obtain ⟨rfl, rfl⟩ := eq_of_optional (fun _ => hr.ne_cons (by simp))
    (fun _ => hr'.ne_cons (by simp)) hrest
  exact ⟨rfl, rfl⟩

theorem SubjectNotation.token_ne_rightBrace (s : SubjectNotation) : s.token ≠ .rightBrace := by
  rcases s with v | (_ | _) <;> simp [token, NameNotation.token]

theorem BlockNotation.follows_of_point (hasPoint : Bool) (r : List QueryToken) :
    Separated.Follows (StartsWith [.dot, .rightBrace]) .dot BlockNotation.tokens
      ((if hasPoint then [.dot] else []) ++ .rightBrace :: r) := by
  cases hasPoint with
  | false => exact ⟨startsWith_cons.mpr (by simp), fun _ _ heq => by cases heq⟩
  | true =>
    refine ⟨startsWith_cons.mpr (by simp), fun b next heq => ?_⟩
    exact b.subject.token_ne_rightBrace (List.cons.inj (List.cons.inj heq).2).1.symm

/-- The brace ends a group. -/
theorem GroupNotation.eq_of_tokens {g g' : GroupNotation} {r r' : List QueryToken}
    (h : g.tokens ++ .rightBrace :: r = g'.tokens ++ .rightBrace :: r') : g = g' ∧ r = r' := by
  have hbrace : ∀ {bs : Separated BlockNotation} {next next' : List QueryToken},
      bs.tokens .dot BlockNotation.tokens ++ next ≠ .rightBrace :: next' := by
    intro bs next next' heq
    obtain ⟨b, rest, hbs⟩ : ∃ b rest, bs.tokens .dot BlockNotation.tokens =
        BlockNotation.tokens b ++ rest := bs.exists_tokens_eq
    rw [hbs] at heq
    exact b.subject.token_ne_rightBrace (List.cons.inj heq).1
  cases g with
  | empty =>
    cases g' with
    | empty => exact ⟨rfl, (List.cons.inj h).2⟩
    | blocks bs' hasPoint' =>
      rw [tokens, tokens, List.append_assoc] at h
      exact absurd h.symm hbrace
  | blocks bs hasPoint =>
    cases g' with
    | empty =>
      rw [tokens, tokens, List.append_assoc] at h
      exact absurd h hbrace
    | blocks bs' hasPoint' =>
      rw [tokens, tokens, List.append_assoc, List.append_assoc] at h
      obtain ⟨rfl, hrest⟩ := Separated.endsItself_tokens (fun _ => startsWith_cons.mpr (by simp))
        BlockNotation.endsItself_tokens (BlockNotation.follows_of_point hasPoint r)
        (BlockNotation.follows_of_point hasPoint' r') h
      obtain ⟨rfl, hbrace⟩ := eq_of_optional (fun _ heq => by cases heq)
        (fun _ heq => by cases heq) hrest
      exact ⟨rfl, (List.cons.inj hbrace).2⟩

/-! ### Queries -/

theorem DeclarationNotation.endsItself_tokens :
    EndsItself (fun _ => True) DeclarationNotation.tokens := by
  rintro (⟨name, reference⟩ | reference) (⟨name', reference'⟩ | reference') r r' - - h
  · simp only [tokens, List.cons_append, List.nil_append, List.cons.injEq, true_and,
      QueryToken.shortened.injEq, QueryToken.iri.injEq, String.append_left_inj] at h
    obtain ⟨rfl, rfl, rfl⟩ := h
    exact ⟨rfl, rfl⟩
  · cases h
  · cases h
  · cases h
    exact ⟨rfl, rfl⟩

theorem ProjectionNotation.endsItself_tokens :
    EndsItself (StartsWith [.whereWord, .leftBrace]) ProjectionNotation.tokens := by
  have hnames : EndsItself (StartsWith [.whereWord, .leftBrace])
      (List.flatMap fun v => [QueryToken.variable v]) := by
    refine endsItself_flatMap (fun v v' r r' _ _ h => ?_) fun v next => by simp
    cases h
    exact ⟨rfl, rfl⟩
  rintro (_ | ⟨v, vs⟩) (_ | ⟨v', vs'⟩) r r' hr hr' h
  · exact ⟨rfl, (List.cons.inj h).2⟩
  · cases h
  · cases h
  · rw [tokens, tokens, ← List.map_cons, ← List.map_cons, List.map_eq_flatMap,
      List.map_eq_flatMap] at h
    obtain ⟨hvs, rfl⟩ := hnames hr hr' h
    cases hvs
    exact ⟨rfl, rfl⟩

theorem DeclarationNotation.not_startsWith_tokens (d : DeclarationNotation)
    (next : List QueryToken) : ¬ StartsWith [.selectWord] (d.tokens ++ next) := by
  cases d <;> simp [tokens]

theorem ProjectionNotation.tokens_ne_distinctWord (p : ProjectionNotation)
    (r next : List QueryToken) : p.tokens ++ r ≠ .distinctWord :: next := by
  intro h
  cases p <;> cases h

/-- **Two queries that are written alike are the same.** -/
theorem QueryNotation.tokens_injective : Function.Injective QueryNotation.tokens := by
  rintro ⟨ds, isDistinct, p, hasWhere, g⟩ ⟨ds', isDistinct', p', hasWhere', g'⟩ h
  simp only [tokens, List.append_assoc] at h
  have hword : ∀ (b : Bool) (r : List QueryToken),
      StartsWith [.whereWord, .leftBrace] ((if b then [.whereWord] else []) ++ .leftBrace :: r) :=
    fun b r => by cases b <;> simp
  obtain ⟨rfl, hquery⟩ := endsItself_flatMap DeclarationNotation.endsItself_tokens
    DeclarationNotation.not_startsWith_tokens (startsWith_cons.mpr (List.mem_singleton_self _))
    (startsWith_cons.mpr (List.mem_singleton_self _)) h
  obtain ⟨rfl, hprojection⟩ := eq_of_optional (p.tokens_ne_distinctWord _)
    (p'.tokens_ne_distinctWord _) (List.cons.inj hquery).2
  obtain ⟨rfl, hwhere⟩ := ProjectionNotation.endsItself_tokens (hword _ _) (hword _ _) hprojection
  obtain ⟨rfl, hgroup⟩ := eq_of_optional (fun _ heq => by cases heq) (fun _ heq => by cases heq)
    hwhere
  obtain ⟨rfl, -⟩ := GroupNotation.eq_of_tokens (List.cons.inj hgroup).2
  rfl

end Ontology
