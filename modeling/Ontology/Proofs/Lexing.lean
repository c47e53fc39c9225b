import Mathlib.Data.List.Basic
import Ontology.Text.Lexeme

/-!
# Cutting texts into tokens

What a text is cut into is known from its parts: a part is a token of its own, if what follows does
not go on with it.  A quoted part ends at the first quote that no backslash takes, whatever follows,
so any text can stand between quotes once its quotes and backslashes are escaped.

## Main definitions

* `Text.Lexes`, `Text.LexesTo` — all of a text is cut into certain tokens, and the same of a part.
* `Text.Stops` — a text does not go on with characters of a kind.
* `Text.IsQuotable` — what can stand between quotes.
* `Text.escaped`, `Text.enclosed` — a text with escapes in place of some of its characters, and the
  same between quotes.

## Main results

* `Text.tokens_append` — a token in front of a text.
* `Text.quotedLength_append`, `Text.exists_of_quotedLength` — how far a quoted part reaches.
* `Text.isQuotable_escaped` — escapes make every text one that can be quoted.
-/

namespace Ontology.Text

/-! ### Tokens one after another -/

section Tokens

variable {τ : Type} {read : Char → List Char → Lexeme τ × Nat} {c : Char} {cs rest : List Char}
  {t : τ} {ts : List τ}

/-- A token comes first, whatever becomes of the rest. -/
theorem tokens_append (h : read c (cs ++ rest) = (.token t, cs.length)) (offset : Nat) :
    tokens read offset (c :: cs ++ rest) =
      (tokens read (offset + byteSize (c :: cs)) rest).map (t :: ·) id := by
  rw [List.cons_append, tokens, h]
  simp only [List.take_left, List.drop_left]
  rfl

/-- All of a text is cut into tokens, wherever it stands. -/
def Lexes (read : Char → List Char → Lexeme τ × Nat) (cs : List Char) (ts : List τ) : Prop :=
  ∀ offset, tokens read offset cs = (ts, none)

theorem lexes_nil : Lexes read [] [] :=
  fun _ => by rw [tokens]

theorem Lexes.token (c : Char) (cs : List Char) (hrest : Lexes read rest ts)
    (h : read c (cs ++ rest) = (.token t, cs.length)) : Lexes read (c :: cs ++ rest) (t :: ts) :=
  fun offset => by rw [tokens_append h, hrest]; rfl

/-- A blank may be skipped. -/
theorem Lexes.blank (c : Char) (hrest : Lexes read rest ts) (h : read c rest = (.blank, 0)) :
    Lexes read (c :: rest) ts :=
  fun offset => by
    rw [tokens, h]
    exact hrest _

/-- A text is cut into tokens, if all of what follows is. -/
def LexesTo (read : Char → List Char → Lexeme τ × Nat) (text : String) (ts : List τ) : Prop :=
  ∀ ⦃rest : List Char⦄ ⦃behind : List τ⦄, Lexes read rest behind →
    Lexes read (text.toList ++ rest) (ts ++ behind)

theorem LexesTo.append {text text' : String} {ts' : List τ} (h : LexesTo read text ts)
    (h' : LexesTo read text' ts') : LexesTo read (text ++ text') (ts ++ ts') := by
  intro rest behind hrest
  rw [String.toList_append, List.append_assoc, List.append_assoc]
  exact h (h' hrest)

theorem LexesTo.lexes {text : String} (h : LexesTo read text ts) : Lexes read text.toList ts := by
  simpa using h lexes_nil

/-- A token is cut off a text that it begins with, if it is one in front of what follows it. -/
theorem LexesTo.token {text text' : String} (htext : text.toList = c :: cs)
    (h' : LexesTo read text' ts)
    (h : ∀ rest, read c (cs ++ (text'.toList ++ rest)) = (.token t, cs.length)) :
    LexesTo read (text ++ text') (t :: ts) := by
  intro rest behind hrest
  rw [String.toList_append, htext, List.append_assoc]
  exact (h' hrest).token c cs (h rest)

end Tokens

/-! ### Runs of characters -/

/-- A text does not go on with an accepted character. -/
def Stops (accepts : Char → Bool) (rest : List Char) : Prop :=
  ∀ c ∈ rest.head?, accepts c = false

theorem stops_cons {accepts : Char → Bool} {c : Char} {rest : List Char} :
    Stops accepts (c :: rest) ↔ accepts c = false := by
  simp [Stops]

theorem runLength_append {accepts : Char → Bool} {cs rest : List Char}
    (h : ∀ c ∈ cs, accepts c = true) (hrest : Stops accepts rest) :
    runLength accepts (cs ++ rest) = cs.length := by
  have hnone : rest.takeWhile accepts = [] := by
    cases rest with
    | nil => rfl
    | cons c rest => rw [List.takeWhile_cons, stops_cons.mp hrest]; rfl
  rw [runLength, List.takeWhile_append_of_pos h, hnone, List.append_nil]

/-! ### Quoted parts -/

/-- What can stand between quotes: a backslash takes the next character with it, which is no line
break; other quotes and backslashes are not allowed. -/
inductive IsQuotable (quote : Char) (multiline : Bool) : List Char → Prop where
  | nil : IsQuotable quote multiline []
  | plain {c : Char} {cs : List Char} (hquote : c ≠ quote) (hslash : c ≠ '\\')
      (hline : c = '\n' → multiline = true) (h : IsQuotable quote multiline cs) :
      IsQuotable quote multiline (c :: cs)
  | taken {c : Char} {cs : List Char} (hline : c ≠ '\n') (h : IsQuotable quote multiline cs) :
      IsQuotable quote multiline ('\\' :: c :: cs)

section Quoted

variable {quote : Char} {multiline : Bool}

/-- A text without quotes and backslashes can stand between quotes, over several lines if these are
allowed. -/
theorem isQuotable_of_not_mem {raw : List Char} (hquote : quote ∉ raw) (hslash : '\\' ∉ raw)
    (hline : '\n' ∈ raw → multiline = true) : IsQuotable quote multiline raw := by
  induction raw with
  | nil => exact .nil
  | cons c cs ih =>
    rw [List.mem_cons, not_or] at hquote hslash
    refine .plain (Ne.symm hquote.1) (Ne.symm hslash.1) ?_
      (ih hquote.2 hslash.2 fun hmem => hline (List.mem_cons_of_mem _ hmem))
    rintro rfl
    exact hline List.mem_cons_self

theorem IsQuotable.head?_ne {raw : List Char} (hquote : quote ≠ '\\')
    (h : IsQuotable quote multiline raw) : raw.head? ≠ some quote := by
  cases h with
  | nil => simp
  | plain hne hslash hline h => simpa using hne
  | taken hline h => simpa using hquote.symm

/-- A quoted part reaches to the first quote that no backslash takes. -/
theorem quotedLength_append {raw : List Char} (hquote : quote ≠ '\\')
    (h : IsQuotable quote multiline raw) (rest : List Char) :
    quotedLength quote multiline (raw ++ quote :: rest) = .ok (raw.length + 1) := by
  induction h with
  | nil => rw [List.nil_append, quotedLength.eq_def]; simp
  | @plain c cs hne hslash hline h ih =>
    have hbreak : ¬(c = '\n' ∧ multiline = false) := fun ⟨hc, hm⟩ => by
      rw [hline hc] at hm
      cases hm
    rw [List.cons_append, quotedLength.eq_def]
    simp only [if_neg hne, if_neg hslash, if_neg hbreak, ih]
    rfl
  | @taken c cs hline h ih =>
    rw [List.cons_append, List.cons_append, quotedLength.eq_def]
    simp only [if_neg hquote.symm, if_neg hline, if_true, ih]
    rfl

theorem exists_of_quotedLength {cs : List Char} {n : Nat}
    (h : quotedLength quote multiline cs = .ok n) :
    ∃ raw rest, IsQuotable quote multiline raw ∧ cs = raw ++ quote :: rest ∧
      n = raw.length + 1 := by
  -- the recursion has nine ways to go on, and three of them lead to a closing quote
  fun_induction quotedLength quote multiline cs generalizing n with
  | case1 => cases h
  | case2 cs =>
    cases h
    exact ⟨[], cs, .nil, rfl, rfl⟩
  | case3 => cases h
  | case4 => cases h
  | case5 d rest hline m hm hquote ih =>
    cases h
    obtain ⟨raw, after, hraw, rfl, rfl⟩ := ih hm
    exact ⟨'\\' :: d :: raw, after, .taken hline hraw, rfl, rfl⟩
  | case6 => cases h
  | case7 => cases h
  | case8 c cs hquote hslash hbreak m hm ih =>
    cases h
    obtain ⟨raw, after, hraw, rfl, rfl⟩ := ih hm
    exact ⟨c :: raw, after, .plain hquote hslash (fun hc => by simpa [hc] using hbreak) hraw, rfl,
      rfl⟩
  | case9 => cases h

end Quoted

/-! ### Escapes -/

/-- A text with a backslash and a letter in place of each character that has one. -/
def escaped (letters : List (Char × Char)) (cs : List Char) : List Char :=
  cs.flatMap fun c =>
    match letters.lookup c with
    | some letter => ['\\', letter]
    | none => [c]

/-- A text between quotes, with escapes. -/
def enclosed (quote : Char) (letters : List (Char × Char)) (cs : List Char) : List Char :=
  quote :: escaped letters cs ++ [quote]

section Escaped

variable {letters : List (Char × Char)} {c letter : Char}

theorem escaped_cons_of_eq_some (h : letters.lookup c = some letter) (cs : List Char) :
    escaped letters (c :: cs) = '\\' :: letter :: escaped letters cs := by
  rw [escaped, List.flatMap_cons, h]
  rfl

theorem escaped_cons_of_eq_none (h : letters.lookup c = none) (cs : List Char) :
    escaped letters (c :: cs) = c :: escaped letters cs := by
  rw [escaped, List.flatMap_cons, h]
  rfl

/-- Each escape makes a text longer. -/
theorem length_escaped (cs : List Char) : (escaped letters cs).length =
    cs.length + cs.countP fun c => (letters.lookup c).isSome := by
  induction cs with
  | nil => rfl
  | cons c cs ih =>
    cases hc : letters.lookup c with
    | none =>
      rw [escaped_cons_of_eq_none hc, List.countP_cons_of_neg (by simp [hc]), List.length_cons, ih,
        List.length_cons]
      omega
    | some letter =>
      rw [escaped_cons_of_eq_some hc, List.countP_cons_of_pos (by simp [hc]), List.length_cons,
        List.length_cons, ih, List.length_cons]
      omega

/-- A text is its own escaped form if it has no character that is escaped. -/
theorem escaped_eq_self_iff {cs : List Char} :
    escaped letters cs = cs ↔ ∀ c ∈ cs, letters.lookup c = none := by
  constructor
  · -- texts of the same length have no escapes between them
    intro h
    have hlength : (escaped letters cs).length = _ := length_escaped cs
    rw [h] at hlength
    have hcount : cs.countP (fun c => (letters.lookup c).isSome) = 0 := by omega
    exact fun c hc => Option.not_isSome_iff_eq_none.mp (List.countP_eq_zero.mp hcount c hc)
  · intro h
    induction cs with
    | nil => rfl
    | cons c cs ih =>
      rw [escaped_cons_of_eq_none (h c List.mem_cons_self),
        ih fun d hd => h d (List.mem_cons_of_mem _ hd)]

/-- Escapes for the quote, the backslash and, where it may not stand, the line break make every text
one that can be quoted. -/
theorem isQuotable_escaped {quote : Char} {multiline : Bool}
    (hquote : letters.lookup quote ≠ none) (hslash : letters.lookup '\\' ≠ none)
    (hline : letters.lookup '\n' = none → multiline = true)
    (hletters : ∀ c, letters.lookup c ≠ some '\n') (cs : List Char) :
    IsQuotable quote multiline (escaped letters cs) := by
  induction cs with
  | nil => exact .nil
  | cons c cs ih =>
    cases hc : letters.lookup c with
    | none =>
      rw [escaped_cons_of_eq_none hc]
      refine .plain ?_ ?_ ?_ ih
      · rintro rfl
        exact hquote hc
      · rintro rfl
        exact hslash hc
      · rintro rfl
        exact hline hc
    | some letter =>
      rw [escaped_cons_of_eq_some hc]
      refine .taken ?_ ih
      rintro rfl
      exact hletters c hc

end Escaped

end Ontology.Text
