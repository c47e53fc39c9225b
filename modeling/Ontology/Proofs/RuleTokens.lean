import Ontology.Proofs.Lexing
import Ontology.Proofs.References

/-!
# Tokens of a rule text

Names, variables and numbers reach as far as the characters that may be in them, quoted texts as far
as their closing quote.  What a quoted text stands for still has the backslashes that stand in front
of other characters than quotes, so there are texts that no literal of a rule stands for.

## Main definitions

* `RuleToken.letters` — quotes and backslashes, which are escaped between quotes.
* `RuleToken.IsPaired` — each backslash of a text comes with a character that it can take.

## Main results

* `RuleToken.read_name`, `RuleToken.read_variable`, `RuleToken.exists_read_integer`,
  `RuleToken.read_quoted` — tokens of a text.
* `RuleToken.unescape_escaped` — escaped backslashes stay as they are.
* `RuleReader.argument_enclosed` — **a text that is written as a literal is read back if and only if
  it has no backslash.**
-/

namespace Ontology

namespace RuleToken

open Text

variable {c : Char} {cs raw rest : List Char}

/-! ### Names, variables and numbers -/

theorem not_isBlank_of_isNameStart (hc : isNameStart c = true) :
    ¬(c = ' ' || c = '\t' || c = '\r' || c = '\n' || c = '\x0c') = true := by
  simp only [Bool.or_eq_true, decide_eq_true_eq]
  rintro ((((rfl | rfl) | rfl) | rfl) | rfl) <;> exact absurd hc (by decide)

/-- A name reaches as far as its characters. -/
theorem read_name (hc : isNameStart c = true) (hcs : ∀ d ∈ cs, isEntityChar d = true)
    (hrest : Stops isEntityChar rest) :
    read c (cs ++ rest) = (.token (.name (String.ofList (c :: cs))), cs.length) := by
  rw [read, if_neg (not_isBlank_of_isNameStart hc), if_pos hc]
  dsimp only
  rw [runLength_append hcs hrest, lexemeText, List.take_left]

/-- So does a variable. -/
theorem read_variable (hc : isNameStart c = true) (hcs : ∀ d ∈ cs, isNameChar d = true)
    (hrest : Stops isNameChar rest) :
    read '?' (c :: cs ++ rest) =
      (.token (.variable (String.ofList (c :: cs))), (c :: cs).length) := by
  have hstart : isNameChar c = true := by rw [isNameChar, hc, Bool.true_or]
  have hread : read '?' (c :: cs ++ rest) =
      if (c :: cs ++ rest).head?.any isNameStart then
        let count := runLength isNameChar (c :: cs ++ rest)
        (.token (.variable (String.ofList ((c :: cs ++ rest).take count))), count)
      else (.stray, 0) := rfl
  rw [hread, if_pos (by simpa using hc)]
  dsimp only
  rw [runLength_append (by simpa [hstart] using hcs) hrest, List.take_left]

theorem range_of_isDigit (hc : c.isDigit = true) : 48 ≤ c.toNat ∧ c.toNat ≤ 57 := by
  simpa [Char.isDigit, UInt32.le_iff_toNat_le] using hc

theorem le_of_isAlpha (hc : c.isAlpha = true) : 65 ≤ c.toNat := by
  rcases (Bool.or_eq_true _ _).mp hc with hupper | hlower
  · exact UInt32.le_iff_toNat_le.mp (of_decide_eq_true hupper).1
  · have hlow : 97 ≤ c.toNat :=
      UInt32.le_iff_toNat_le.mp (of_decide_eq_true ((Bool.and_eq_true _ _).mp hlower).1)
    omega

/-- A digit does not begin a name. -/
theorem not_isNameStart_of_isDigit (hc : c.isDigit = true) : ¬isNameStart c = true := by
  obtain ⟨-, hhigh⟩ := range_of_isDigit hc
  intro h
  rcases (Bool.or_eq_true _ _).mp h with halpha | hline
  · have hlow := le_of_isAlpha halpha
    omega
  · cases of_decide_eq_true hline
    exact absurd hc (by decide)

/-- An integer reaches as far as its digits, if no fraction follows. -/
theorem readNumber_append (hcs : ∀ d ∈ cs, d.isDigit = true) (hc : c.isDigit = true ∨ cs ≠ [])
    (hrest : Stops (fun d => d.isDigit || d = '.') rest) :
    readNumber c (cs ++ rest) = (.token (.integer (String.ofList (c :: cs))), cs.length) := by
  have hdigits : Stops Char.isDigit rest := fun d hd => (Bool.or_eq_false_iff.mp (hrest d hd)).1
  have hfraction : fractionLength rest = 0 := by
    rw [fractionLength.eq_def]
    split
    · exact absurd (stops_cons.mp hrest) (by simp)
    · rfl
  have hdigit : (c.isDigit || decide (cs.length ≠ 0)) = true := by
    simpa using hc
  rw [readNumber, runLength_append hcs hdigits]
  simp only [List.drop_left, hfraction, lexemeText, List.take_left]
  simp only [ne_eq, not_true_eq_false, if_false]
  rw [if_pos hdigit]

theorem read_of_isDigit (hc : c.isDigit = true) (cs : List Char) : read c cs = readNumber c cs := by
  obtain ⟨hlow, hhigh⟩ := range_of_isDigit hc
  have hne : ∀ d : Char, d.isDigit = false → c ≠ d := by
    rintro d hd rfl
    rw [hd] at hc
    cases hc
  have hblank : ¬(c = ' ' || c = '\t' || c = '\r' || c = '\n' || c = '\x0c') = true := by
    simp [hne]
  rw [read, if_neg hblank, if_neg (not_isNameStart_of_isDigit hc), if_neg (hne '?' rfl),
    if_neg (hne '"' rfl), if_neg (by simp [hne]), if_pos (by simp [hc])]

/-- A sign in front of a digit belongs to the number. -/
theorem read_minus (hc : c.isDigit = true) (cs : List Char) :
    read '-' (c :: cs) = readNumber '-' (c :: cs) := by
  have hread : read '-' (c :: cs) =
      if ('-' = '-' && (c :: cs).head? = some '>') then (.token .arrow, 1)
      else readNumber '-' (c :: cs) := rfl
  rw [hread, if_neg]
  rw [List.head?_cons, Bool.and_eq_true, decide_eq_true_eq, decide_eq_true_eq, Option.some_inj]
  rintro ⟨-, rfl⟩
  exact absurd hc (by decide)

/-- Every integer is a token of its own, if no fraction follows. -/
theorem exists_read_integer (n : Int) :
    ∃ c digits, (toString n).toList = c :: digits ∧
      ∀ {rest : List Char}, Stops (fun d => d.isDigit || d = '.') rest →
        read c (digits ++ rest) = (.token (.integer (toString n)), digits.length) := by
  have hall : ∀ m : Nat, ∀ d ∈ Nat.toDigits 10 m, d.isDigit = true := fun m d hd =>
    Nat.isDigit_of_mem_toDigits (by decide) (by decide) hd
  have htext : ∀ {c cs}, (toString n).toList = c :: cs → toString n = String.ofList (c :: cs) :=
    fun h => by rw [← h, String.ofList_toList]
  -- a token begins with a digit or, for a negative number, with its sign
  by_cases hn : 0 ≤ n
  · obtain ⟨c, digits, hdigits⟩ :=
      List.exists_cons_of_ne_nil (Nat.toDigits_ne_nil (n := n.toNat) (b := 10))
    have hstring : (toString n).toList = c :: digits := by
      rw [Int.toString_eq_repr, Int.repr_eq_if, if_pos hn, Nat.toList_repr, hdigits]
    refine ⟨c, digits, hstring, fun hrest => ?_⟩
    have hdigit := hall n.toNat
    rw [hdigits] at hdigit
    have hc : c.isDigit = true := hdigit c List.mem_cons_self
    rw [read_of_isDigit hc, htext hstring]
    exact readNumber_append (fun d hd => hdigit d (List.mem_cons_of_mem _ hd)) (.inl hc) hrest
  · obtain ⟨c, digits, hdigits⟩ :=
      List.exists_cons_of_ne_nil (Nat.toDigits_ne_nil (n := (-n).toNat) (b := 10))
    have hstring : (toString n).toList = '-' :: Nat.toDigits 10 (-n).toNat := by
      rw [Int.toString_eq_repr, Int.repr_eq_if, if_neg hn, String.toList_append, Nat.toList_repr]
      rfl
    refine ⟨'-', Nat.toDigits 10 (-n).toNat, hstring, fun hrest => ?_⟩
    have hread := readNumber_append (c := '-') (hall (-n).toNat) (.inr Nat.toDigits_ne_nil) hrest
    rw [htext hstring, ← hread, hdigits]
    exact read_minus (hall (-n).toNat c (hdigits ▸ List.mem_cons_self)) _

/-! ### Quoted texts -/

theorem read_quote (cs : List Char) : read '"' cs =
    match quotedLength '"' true cs with
    | .ok count => (.token (.quoted (String.ofList (cs.take (count - 1)))), count)
    | .error count => (.stray, count) :=
  rfl

/-- A quoted text reaches as far as the first quote that no backslash takes. -/
theorem read_quoted (h : IsQuotable '"' true raw) (rest : List Char) :
    read '"' (raw ++ ['"'] ++ rest) =
      (.token (.quoted (String.ofList raw)), (raw ++ ['"']).length) := by
  rw [read_quote, List.append_assoc, List.singleton_append, quotedLength_append (by decide) h]
  simp

/-- What is one token between quotes can stand there. -/
theorem isQuotable_of_lexes (h : Lexes read ('"' :: raw ++ ['"']) [.quoted (String.ofList raw)]) :
    IsQuotable '"' true raw := by
  have htokens := h 0
  rw [List.cons_append, tokens, read_quote] at htokens
  cases hcount : quotedLength '"' true (raw ++ ['"']) with
  | error count =>
    rw [hcount] at htokens
    cases htokens
  | ok count =>
    -- the token is what stands in front of the quote that was found, and that is all of the text
    obtain ⟨raw', behind, hraw', hsplit, rfl⟩ := exists_of_quotedLength hcount
    rw [hcount, hsplit] at htokens
    dsimp only at htokens
    rw [Nat.add_sub_cancel, List.take_left] at htokens
    obtain ⟨hfirst, -⟩ := List.cons.inj (Prod.mk.inj htokens).1
    rwa [← String.ofList_injective (RuleToken.quoted.inj hfirst)]

/-- The characters that are escaped between quotes; they are their own letters. -/
def letters : List (Char × Char) :=
  [('"', '"'), ('\\', '\\')]

theorem isQuotable_escaped_letters (cs : List Char) : IsQuotable '"' true (escaped letters cs) := by
  refine isQuotable_escaped (by decide) (by decide) (fun _ => rfl) (fun c h => ?_) cs
  obtain ⟨before, behind, hletters, -⟩ := List.lookup_eq_some_iff.mp h
  have hall : ∀ row ∈ letters, row.2 ≠ '\n' := by decide
  exact hall (c, '\n') (hletters ▸ List.mem_append_right _ List.mem_cons_self) rfl

/-! ### Values of quoted texts -/

/-- Only backslashes in front of quotes are left out. -/
theorem unescape_cons (h : c ≠ '\\' ∨ cs.head? ≠ some '"') :
    unescape (c :: cs) = c :: unescape cs := by
  rw [unescape]
  rintro rest rfl rfl
  simp at h

theorem unescape_eq_self (h : '\\' ∉ cs) : unescape cs = cs := by
  induction cs with
  | nil => rfl
  | cons c cs ih =>
    rw [List.mem_cons, not_or] at h
    rw [unescape_cons (.inl (Ne.symm h.1)), ih h.2]

theorem unescape_quote (cs : List Char) : unescape ('\\' :: '"' :: cs) = '"' :: unescape cs := by
  rw [unescape]

/-- A backslash in front of another character stays where it is. -/
theorem unescape_taken (hc : c ≠ '"') (h : IsQuotable '"' true cs) :
    unescape ('\\' :: c :: cs) = '\\' :: c :: unescape cs := by
  rw [unescape_cons (.inr (by simpa using hc)), unescape_cons (.inr (h.head?_ne (by decide)))]

/-- Escaped backslashes stay as they are. -/
theorem unescape_escaped (cs : List Char) :
    unescape (escaped letters cs) = escaped [('\\', '\\')] cs := by
  induction cs with
  | nil => rfl
  | cons c cs ih =>
    by_cases hquote : c = '"'
    · subst hquote
      rw [escaped_cons_of_eq_some (show letters.lookup '"' = some '"' from rfl), unescape_quote, ih,
        escaped_cons_of_eq_none rfl]
    by_cases hslash : c = '\\'
    · subst hslash
      rw [escaped_cons_of_eq_some (show letters.lookup '\\' = some '\\' from rfl),
        unescape_taken (by decide) (isQuotable_escaped_letters cs), ih,
        escaped_cons_of_eq_some (show [('\\', '\\')].lookup '\\' = some '\\' from rfl)]
    · rw [escaped_cons_of_eq_none (by simp [letters, List.lookup_eq_none_iff, hquote, hslash]),
        unescape_cons (.inl hslash), ih,
        escaped_cons_of_eq_none (by simp [hslash])]

/-- Doubled backslashes change a text that has any. -/
theorem doubled_eq_self_iff : escaped [('\\', '\\')] cs = cs ↔ '\\' ∉ cs := by
  rw [escaped_eq_self_iff]
  constructor
  · intro h hmem
    cases h _ hmem
  · rintro h c hc
    have hslash : c ≠ '\\' := fun heq => h (heq ▸ hc)
    simp [hslash]

/-- Each backslash of a text comes with the next character, which is no quote and no line break. -/
inductive IsPaired : List Char → Prop where
  | nil : IsPaired []
  | plain {c : Char} {cs : List Char} (hslash : c ≠ '\\') (h : IsPaired cs) : IsPaired (c :: cs)
  | taken {c : Char} {cs : List Char} (hquote : c ≠ '"') (hline : c ≠ '\n') (h : IsPaired cs) :
      IsPaired ('\\' :: c :: cs)

/-- Quoted texts stand for those whose backslashes come in pairs with other characters. -/
theorem exists_unescape_eq_iff :
    (∃ raw, IsQuotable '"' true raw ∧ unescape raw = cs) ↔ IsPaired cs := by
  constructor
  · rintro ⟨raw, hraw, rfl⟩
    induction hraw with
    | nil => exact .nil
    | @plain c cs hquote hslash hline h ih =>
      rw [unescape_cons (.inl hslash)]
      exact .plain hslash ih
    | @taken c cs hline h ih =>
      by_cases hquote : c = '"'
      · subst hquote
        rw [unescape_quote]
        exact .plain (by decide) ih
      · rw [unescape_taken hquote h]
        exact .taken hquote hline ih
  · intro h
    induction h with
    | nil => exact ⟨[], .nil, rfl⟩
    | @plain c cs hslash h ih =>
      obtain ⟨raw, hraw, rfl⟩ := ih
      by_cases hquote : c = '"'
      · subst hquote
        exact ⟨_, .taken (by decide) hraw, unescape_quote raw⟩
      · exact ⟨_, .plain hquote hslash (fun _ => rfl) hraw, unescape_cons (.inl hslash)⟩
    | @taken c cs hquote hline h ih =>
      obtain ⟨raw, hraw, rfl⟩ := ih
      exact ⟨_, .taken hline hraw, unescape_taken hquote hraw⟩

end RuleToken

namespace RuleReader

open Text RuleToken

theorem argument_quoted (r : RuleReader) (raw : String) (left : List RuleToken) :
    r.argument (.quoted raw :: left) =
      .ok (.literal (.text (String.ofList (unescape raw.toList)))) :=
  rfl

theorem argument_quoted_eq_iff {r : RuleReader} {raw s : String} {left : List RuleToken} :
    r.argument (.quoted raw :: left) = .ok (.literal (.text s)) ↔
      unescape raw.toList = s.toList := by
  rw [argument_quoted, Except.ok.injEq, Argument.literal.injEq, Literal.text.injEq,
    ← String.toList_inj, String.toList_ofList]

/-- Literals stand for the texts whose backslashes come in pairs with other characters. -/
theorem exists_argument_quoted_iff {s : String} :
    (∃ raw : String, Lexes RuleToken.read ('"' :: raw.toList ++ ['"']) [.quoted raw] ∧
        ∀ (r : RuleReader) left, r.argument (.quoted raw :: left) = .ok (.literal (.text s))) ↔
      IsPaired s.toList := by
  rw [← exists_unescape_eq_iff]
  constructor
  · rintro ⟨raw, hlexes, hread⟩
    rw [← String.ofList_toList (s := raw)] at hlexes
    rw [String.toList_ofList] at hlexes
    exact ⟨raw.toList, isQuotable_of_lexes hlexes,
      argument_quoted_eq_iff.mp (hread ⟨default, "", 0⟩ [])⟩
  · rintro ⟨raw, hraw, hvalue⟩
    refine ⟨String.ofList raw, ?_, fun r left => argument_quoted_eq_iff.mpr ?_⟩
    · rw [String.toList_ofList, ← List.append_nil ('"' :: raw ++ ['"'])]
      exact lexes_nil.token _ _ (read_quoted hraw [])
    · rw [String.toList_ofList, hvalue]

/-- **A text that is written as a literal is read back if and only if it has no backslash.**  It is
cut off as one token, whatever follows it, but this token stands for the text with each of its
backslashes doubled.  A text is what some literal stands for if and only if its backslashes come in
pairs with other characters. -/
theorem argument_enclosed (s : String) :
    (∃ raw : String,
      (∀ rest offset, tokens RuleToken.read offset (enclosed '"' letters s.toList ++ rest) =
        (tokens RuleToken.read
          (offset + byteSize (enclosed '"' letters s.toList)) rest).map (.quoted raw :: ·) id) ∧
      ∀ (r : RuleReader) left,
        r.argument (.quoted raw :: left) =
            .ok (.literal (.text (String.ofList (escaped [('\\', '\\')] s.toList)))) ∧
          (r.argument (.quoted raw :: left) = .ok (.literal (.text s)) ↔ '\\' ∉ s.toList)) ∧
    ((∃ raw : String, Lexes RuleToken.read ('"' :: raw.toList ++ ['"']) [.quoted raw] ∧
        ∀ (r : RuleReader) left, r.argument (.quoted raw :: left) = .ok (.literal (.text s))) ↔
      IsPaired s.toList) := by
  have hvalue : unescape (String.ofList (escaped letters s.toList)).toList =
      escaped [('\\', '\\')] s.toList := by
    rw [String.toList_ofList, unescape_escaped]
  refine ⟨⟨String.ofList (escaped letters s.toList), fun rest offset => ?_, fun r left => ⟨?_, ?_⟩⟩,
    exists_argument_quoted_iff⟩
  · exact tokens_append (read_quoted (isQuotable_escaped_letters s.toList) rest) offset
  · rw [argument_quoted, hvalue]
  · rw [argument_quoted_eq_iff, hvalue, doubled_eq_self_iff]

/-- The literal of a backslash is read as two of them, and no literal is read as one. -/
theorem argument_enclosed_backslash :
    Lexes RuleToken.read (enclosed '"' letters "\\".toList) [.quoted "\\\\"] ∧
    (∀ (r : RuleReader) left,
      r.argument (.quoted "\\\\" :: left) = .ok (.literal (.text "\\\\"))) ∧
    "\\\\" ≠ "\\" ∧
    ¬∃ raw : String, Lexes RuleToken.read ('"' :: raw.toList ++ ['"']) [.quoted raw] ∧
      ∀ (r : RuleReader) left, r.argument (.quoted raw :: left) = .ok (.literal (.text "\\")) := by
  have hraw : IsQuotable '"' true ['\\', '\\'] := .taken (by decide) .nil
  refine ⟨lexes_nil.token _ _ (read_quoted hraw []), fun r left => argument_quoted r _ left,
    by decide, ?_⟩
  rw [exists_argument_quoted_iff]
  rintro ⟨⟩
  contradiction

end RuleReader

end Ontology
