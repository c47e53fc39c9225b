import Ontology.Proofs.Lexing
import Ontology.Proofs.QueryTerms

/-!
# Texts in queries

Every text can be the value of a literal in a query.  It is written between quotes of either kind,
with escapes for the quote, the backslash and the control characters that have a letter; quotes of
the other kind stand for themselves.

## Main definitions

* `QueryToken.letters` — the characters that are escaped, with their letters.

## Main results

* `QueryToken.read_quoted` — a quoted part is one token.
* `QueryToken.spells_escaped` — an escaped text spells the text.
* `SelectQuery.reads_enclosed` — **a text that is written as a literal is read back, whatever
  follows it.**
-/

namespace Ontology

namespace QueryToken

open Text

/-- The characters that are escaped between quotes of a kind, with their letters. -/
def letters (quote : Char) : List (Char × Char) :=
  [('\\', '\\'), (quote, quote), ('\n', 'n'), ('\r', 'r'), ('\t', 't'), ('\x08', 'b'),
    ('\x0c', 'f')]

/-- The quotes that a text may stand between. -/
def quotes : List Char :=
  ['"', '\'']

variable {quote : Char}

theorem lookup_letters (hquote : quote ∈ quotes) :
    (letters quote).lookup quote ≠ none ∧ (letters quote).lookup '\\' ≠ none ∧
      (letters quote).lookup '\n' ≠ none ∧
      ∀ c letter, (letters quote).lookup c = some letter → (letter, c) ∈ escapes := by
  have hrows : (letters quote).lookup quote ≠ none ∧ (letters quote).lookup '\\' ≠ none ∧
      (letters quote).lookup '\n' ≠ none ∧ ∀ row ∈ letters quote, (row.2, row.1) ∈ escapes := by
    rcases List.mem_pair.mp hquote with rfl | rfl <;> decide
  obtain ⟨hself, hslash, hline, hescapes⟩ := hrows
  refine ⟨hself, hslash, hline, fun c letter h => hescapes (c, letter) ?_⟩
  obtain ⟨before, behind, hletters, -⟩ := List.lookup_eq_some_iff.mp h
  rw [hletters]
  exact List.mem_append_right _ List.mem_cons_self

/-- No escape stands for a line break by itself. -/
theorem snd_ne_line_break {e c : Char} (h : (e, c) ∈ escapes) : e ≠ '\n' := by
  have hall : ∀ row ∈ escapes, row.1 ≠ '\n' := by decide
  exact hall _ h

/-- An escaped text spells the text. -/
theorem spells_escaped (hquote : quote ∈ quotes) (cs : List Char) :
    Spells (escaped (letters quote) cs) cs := by
  obtain ⟨-, hslash, -, hescapes⟩ := lookup_letters hquote
  induction cs with
  | nil => exact .nil
  | cons c cs ih =>
    cases hc : (letters quote).lookup c with
    | none =>
      rw [escaped_cons_of_eq_none hc]
      refine .plain ?_ ih
      rintro rfl
      exact hslash hc
    | some letter =>
      rw [escaped_cons_of_eq_some hc]
      exact .escape (hescapes c letter hc) ih

/-- An escaped text can stand between quotes. -/
theorem isQuotable_escaped_letters (hquote : quote ∈ quotes) (cs : List Char) :
    IsQuotable quote false (escaped (letters quote) cs) := by
  obtain ⟨hself, hslash, hline, hescapes⟩ := lookup_letters hquote
  exact isQuotable_escaped hself hslash (fun h => absurd h hline)
    (fun c h => snd_ne_line_break (hescapes c _ h) rfl) cs

theorem read_of_mem_quotes (hquote : quote ∈ quotes) (cs : List Char) :
    read quote cs = match quotedLength quote false cs with
      | .ok count => (.token (.quoted (String.ofList (cs.take (count - 1)))), count)
      | .error count => (.stray, count) := by
  rcases List.mem_pair.mp hquote with rfl | rfl <;> rfl

/-- A quoted part is one token. -/
theorem read_quoted {raw : List Char} (hquote : quote ∈ quotes) (h : IsQuotable quote false raw)
    (rest : List Char) :
    read quote (raw ++ [quote] ++ rest) =
      (.token (.quoted (String.ofList raw)), (raw ++ [quote]).length) := by
  have hslash : quote ≠ '\\' := by
    rcases List.mem_pair.mp hquote with rfl | rfl <;> decide
  rw [read_of_mem_quotes hquote, List.append_assoc, List.singleton_append,
    quotedLength_append hslash h]
  simp

end QueryToken

namespace SelectQuery

open Text QueryToken

variable {n : QueryNames} {raw : String} {value : List Char}

/-- What is read at a quoted text is its value, with a language or a datatype that follows. -/
theorem value_of_reads_quoted {left rest : List QueryToken} {o : PatternTerm}
    (hvalue : Spells raw.toList value) (h : Reads (object n) (.quoted raw :: left) o rest) :
    ∃ l, o = .literal l ∧ l.value = String.ofList value := by
  -- the text may have been read with another value, but spellings are unambiguous
  have hunique : ∀ {value'}, Spells raw.toList value' → value' = value := fun hvalue' =>
    Except.ok.inj ((unescape_eq_ok_iff.mpr hvalue').symm.trans (unescape_eq_ok_iff.mpr hvalue))
  obtain ⟨x, hleft, hx⟩ := exists_of_reads_object h
  cases hx with
  | text hspells | tagged hspells htag | typed hspells hdatatype =>
    obtain ⟨heq, -⟩ := List.cons.inj hleft
    cases heq
    exact ⟨_, rfl, by rw [hunique hspells]; rfl⟩
  | @name x iri hname => cases x <;> cases hleft
  | truth value => cases value <;> cases hleft
  | _ => cases hleft

/-- **A text that is written as a literal is read back.**  It is cut off as one token, whatever
follows it, and as an object this token is a literal with just this text: a plain one, or the one of
the language or the datatype that follows. -/
theorem reads_enclosed (s : String) {quote : Char} (hquote : quote ∈ quotes) :
    ∃ raw : String,
      (∀ rest offset,
        tokens QueryToken.read offset (enclosed quote (letters quote) s.toList ++ rest) =
          (tokens QueryToken.read (offset + byteSize (enclosed quote (letters quote) s.toList))
            rest).map (.quoted raw :: ·) id) ∧
      ∀ n : QueryNames,
        (∀ rest, (∀ t ∈ rest.head?, t ≠ .doubleCaret ∧ ∀ tag, t ≠ .language tag) →
          Reads (object n) (.quoted raw :: rest) (.literal (.plain s)) rest) ∧
        (∀ tag rest, Rdf.isLanguageTag tag = true →
          Reads (object n) (.quoted raw :: .language tag :: rest) (.literal (.tagged s tag.toLower))
            rest) ∧
        (∀ (x : NameNotation) iri rest, x.Names n iri →
          Reads (object n) (.quoted raw :: .doubleCaret :: x.token :: rest)
            (.literal (.typed s iri)) rest) ∧
        ∀ left o rest, Reads (object n) (.quoted raw :: left) o rest →
          ∃ l, o = .literal l ∧ l.value = s := by
  have hspells : Spells (String.ofList (escaped (letters quote) s.toList)).toList s.toList := by
    rw [String.toList_ofList]
    exact spells_escaped hquote s.toList
  have hobject {n : QueryNames} {left rest : List QueryToken} {l : Rdf.Literal}
      (hle : rest.length ≤ left.length) (h : textLiteral n s left = .ok (l, ⟨rest, hle⟩)) :
      Reads (object n) (.quoted (String.ofList (escaped (letters quote) s.toList)) :: left)
        (.literal l) rest :=
    object_quoted hspells (by rw [String.ofList_toList]; exact h)
  refine ⟨String.ofList (escaped (letters quote) s.toList), fun rest offset => ?_, fun n =>
    ⟨fun rest hrest => ?_, fun tag rest htag => ?_, fun x iri rest hx => ?_,
      fun left o rest h => ?_⟩⟩
  · have hraw := isQuotable_escaped_letters hquote s.toList
    exact tokens_append (read_quoted hquote hraw rest) offset
  · exact hobject (Nat.le_refl _) (textLiteral_eq_plain hrest)
  · exact hobject (by simp) (if_pos htag)
  · have hiri := NameNotation.read_eq_ok_iff.mpr hx
    cases x with
    | reference text | shortened text =>
      exact hobject (by simp; omega) (bind_eq_ok_iff.mpr ⟨iri, hiri, rfl⟩)
  · obtain ⟨l, ho, hl⟩ := value_of_reads_quoted hspells h
    exact ⟨l, ho, hl.trans String.ofList_toList⟩

/-- A text with quotes of both kinds, backslashes in front of them and at its end, and a line break,
in front of more text in the same line. -/
theorem reads_enclosed_measure :
    '\'' ∈ quotes ∧
    (∃ raw, tokens QueryToken.read 0
        (enclosed '\'' (letters '\'') "6'\\\"\n\\".toList ++ "@en-GB'".toList) =
          ([.quoted raw, .language "en-GB"], some ⟨"'", 18⟩) ∧
      ∀ n, Reads (object n) [.quoted raw, .language "en-GB"]
        (.literal (.tagged "6'\\\"\n\\" "en-gb")) []) := by
  have hlength : byteSize (enclosed '\'' (letters '\'') "6'\\\"\n\\".toList) = 12 := by
    decide +kernel
  have hbehind : tokens QueryToken.read 12 "@en-GB'".toList =
      ([.language "en-GB"], some ⟨"'", 18⟩) := by
    decide +kernel
  have hlower : "en-GB".toLower = "en-gb" := by decide +kernel
  have hquote : '\'' ∈ quotes := by decide
  obtain ⟨raw, htokens, hobject⟩ := reads_enclosed "6'\\\"\n\\" hquote
  refine ⟨hquote, raw, ?_, fun n => ?_⟩
  · rw [htokens, hlength, Nat.zero_add, hbehind]
    rfl
  · rw [← hlower]
    exact (hobject n).2.1 "en-GB" [] (by decide +kernel)

end SelectQuery

end Ontology
