import Ontology.Proofs.Lists
import Ontology.Proofs.QueryUnambiguous

/-!
# Reading the terms of a query

Subjects, predicates and objects are read where one is written, as what it stands for.  Behind an
object stands a comma or what follows its property; so the end of a text cannot be mistaken, which
may be followed by a language or a datatype.

## Main definitions

* `SelectQuery.Reads` — something is read at the front.

## Main results

* `QueryToken.unescape_eq_ok_iff`, `NameNotation.read_eq_ok_iff` — quoted texts and names.
* `NameNotation.Names.unique` — a name stands for one IRI.
* `SelectQuery.reads_subject_iff`, `SelectQuery.reads_predicate_iff`,
  `SelectQuery.exists_of_reads_object`, `SelectQuery.reads_object` — terms.
-/

namespace Ontology

/-! ### Quoted texts and names -/

theorem QueryToken.unescape_eq_ok_iff {cs value : List Char} :
    unescape cs = .ok value ↔ Spells cs value := by
  constructor
  · intro h
    fun_induction unescape cs generalizing value with
    | case1 => cases h; exact .nil
    | case2 cs | case3 cs | case4 cs | case5 cs | case6 cs | case7 cs | case8 cs | case9 cs =>
      next ih =>
      obtain ⟨c, hc, h⟩ := exists_of_bind_eq_ok h
      obtain ⟨v, hv, h⟩ := exists_of_bind_eq_ok h
      cases hc
      cases h
      exact .escape (by simp [escapes]) (ih hv)
    | case10 => cases h
    | case11 => cases h
    | case12 c cs hescape hend ih =>
      obtain ⟨v, hv, h⟩ := exists_of_bind_eq_ok h
      cases h
      refine .plain (fun hc => ?_) (ih hv)
      cases cs with
      | nil => exact hend hc rfl
      | cons e cs => exact hescape e cs hc rfl
  · intro h
    induction h with
    | nil => rfl
    | @plain c cs value hc h ih =>
      rw [unescape.eq_def]
      split
      · next heq => cases heq
      · next heq =>
        exact absurd (List.cons.inj heq).1 hc
      · next heq =>
        exact absurd (List.cons.inj heq).1 hc
      · next heq =>
        obtain ⟨rfl, rfl⟩ := List.cons.inj heq
        rw [ih]
        rfl
    | escape he h ih =>
      simp only [escapes, List.mem_cons, Prod.mk.injEq, List.not_mem_nil, or_false] at he
      rcases he with ⟨rfl, rfl⟩ | ⟨rfl, rfl⟩ | ⟨rfl, rfl⟩ | ⟨rfl, rfl⟩ | ⟨rfl, rfl⟩ | ⟨rfl, rfl⟩ |
        ⟨rfl, rfl⟩ | ⟨rfl, rfl⟩ <;> rw [unescape, ih] <;> rfl

theorem QueryNames.checked_eq_ok_iff {text iri : String} :
    checked text = .ok iri ↔ Rdf.isIri text = true ∧ iri = text := by
  unfold checked
  by_cases h : Rdf.isIri text = true
  · rw [if_pos h]
    constructor
    · intro heq
      exact ⟨h, (Except.ok.inj heq).symm⟩
    · rintro ⟨-, rfl⟩
      rfl
  · rw [if_neg h]
    constructor
    · intro heq
      cases heq
    · rintro ⟨h', -⟩
      exact absurd h' h

/-- The IRI of a name, when it can be read. -/
def NameNotation.read (n : QueryNames) : NameNotation → Querying String
  | reference text => n.resolve text
  | shortened name => n.expand name

theorem QueryNames.exists_of_iri?_eq_some {n : QueryNames} {t : QueryToken} {r : Querying String}
    (h : n.iri? t = some r) : ∃ x : NameNotation, t = x.token ∧ r = x.read n := by
  cases t with
  | iri text => exact ⟨.reference text, rfl, (Option.some.inj h).symm⟩
  | shortened name => exact ⟨.shortened name, rfl, (Option.some.inj h).symm⟩
  | _ => cases h

namespace QueryNames

/-- The first colon of a name splits it. -/
theorem splitName_of_colon {space localPart : String} (hcolon : ':' ∉ space.toList) :
    splitName (space ++ ":" ++ localPart) = (space, localPart) := by
  have hname : (space ++ ":" ++ localPart).toList = space.toList ++ ':' :: localPart.toList := by
    rw [String.toList_append, String.toList_append, List.append_assoc]
    rfl
  have hplain : ∀ c ∈ space.toList, decide (c ≠ ':') = true := by
    intro c hc
    exact decide_eq_true fun heq => hcolon (heq ▸ hc)
  unfold splitName
  rw [hname, if_pos (by simp), List.takeWhile_append_of_pos hplain,
    List.dropWhile_append_of_pos hplain]
  simp

theorem splitName_of_not_colon {name : String} (hcolon : ':' ∉ name.toList) :
    splitName name = ("", name) := by
  unfold splitName
  rw [if_neg (by simpa using hcolon)]

theorem exists_of_colon {name : String} (hcolon : ':' ∈ name.toList) :
    ∃ space localPart : String, ':' ∉ space.toList ∧ name = space ++ ":" ++ localPart := by
  obtain ⟨before, after, hname, hbefore⟩ := List.eq_append_cons_of_mem hcolon
  refine ⟨String.ofList before, String.ofList after, by rwa [String.toList_ofList], ?_⟩
  rw [← String.toList_inj, hname]
  simp

theorem expand_eq_ok_iff {n : QueryNames} {name space localPart iri : String}
    (hsplit : splitName name = (space, localPart)) :
    n.expand name = .ok iri ↔ ∃ front, n.spaces.lookup space = some front ∧
      Rdf.isIri (front ++ localPart) = true ∧ iri = front ++ localPart := by
  unfold expand
  simp only [hsplit]
  cases hlookup : n.spaces.lookup space with
  | none => simp
  | some front => simp [checked_eq_ok_iff]

end QueryNames

theorem NameNotation.read_eq_ok_iff {n : QueryNames} {x : NameNotation} {iri : String} :
    x.read n = .ok iri ↔ x.Names n iri := by
  constructor
  · intro h
    cases x with
    | reference text =>
      rw [read, QueryNames.resolve] at h
      split at h
      · next hcolon =>
        obtain ⟨hiri, rfl⟩ := QueryNames.checked_eq_ok_iff.mp h
        exact .absolute (List.contains_iff_mem.mp hcolon) hiri
      · next hcolon =>
        split at h
        · next base hbase =>
          obtain ⟨hiri, rfl⟩ := QueryNames.checked_eq_ok_iff.mp h
          exact .relative (fun hmem => hcolon (List.contains_iff_mem.mpr hmem)) hbase hiri
        · cases h
    | shortened name =>
      rw [read] at h
      by_cases hcolon : ':' ∈ name.toList
      · obtain ⟨space, localPart, hspace, rfl⟩ := QueryNames.exists_of_colon hcolon
        obtain ⟨front, hlookup, hiri, rfl⟩ :=
          (QueryNames.expand_eq_ok_iff (QueryNames.splitName_of_colon hspace)).mp h
        exact .shortened hspace hlookup hiri
      · obtain ⟨front, hlookup, hiri, rfl⟩ :=
          (QueryNames.expand_eq_ok_iff (QueryNames.splitName_of_not_colon hcolon)).mp h
        exact .bare hcolon hlookup hiri
  · intro h
    cases h with
    | absolute hcolon h =>
      rw [read, QueryNames.resolve, if_pos (List.contains_iff_mem.mpr hcolon)]
      exact QueryNames.checked_eq_ok_iff.mpr ⟨h, rfl⟩
    | relative hcolon hbase h =>
      rw [read, QueryNames.resolve, if_neg (fun hc => hcolon (List.contains_iff_mem.mp hc)), hbase]
      exact QueryNames.checked_eq_ok_iff.mpr ⟨h, rfl⟩
    | shortened hcolon hspace h =>
      exact (QueryNames.expand_eq_ok_iff (QueryNames.splitName_of_colon hcolon)).mpr
        ⟨_, hspace, h, rfl⟩
    | bare hcolon hspace h =>
      exact (QueryNames.expand_eq_ok_iff (QueryNames.splitName_of_not_colon hcolon)).mpr
        ⟨_, hspace, h, rfl⟩

/-- Where the reader goes on with the IRI of a token, the token is a name. -/
theorem NameNotation.exists_of_bind_eq_ok {α : Type} {n : QueryNames} {t : QueryToken}
    {r : Querying String} {f : String → Querying α} {a : α} (ht : n.iri? t = some r)
    (h : r >>= f = .ok a) :
    ∃ (x : NameNotation) (iri : String), t = x.token ∧ x.Names n iri ∧ f iri = .ok a := by
  obtain ⟨x, rfl, rfl⟩ := QueryNames.exists_of_iri?_eq_some ht
  obtain ⟨iri, hread, hf⟩ := Ontology.exists_of_bind_eq_ok h
  exact ⟨x, iri, rfl, read_eq_ok_iff.mp hread, hf⟩

/-- A name stands for one IRI. -/
theorem NameNotation.Names.unique {n : QueryNames} {x : NameNotation} {iri iri' : String}
    (h : x.Names n iri) (h' : x.Names n iri') : iri = iri' := by
  have heq := (read_eq_ok_iff.mpr h).symm.trans (read_eq_ok_iff.mpr h')
  exact Except.ok.inj heq

theorem SubjectNotation.Means.unique {n : QueryNames} {x : SubjectNotation} {s s' : PatternTerm}
    (h : x.Means n s) (h' : x.Means n s') : s = s' := by
  cases h with
  | «variable» v => cases h'; rfl
  | name h => cases h' with
    | name h' => rw [h.unique h']

theorem PredicateNotation.Means.unique {n : QueryNames} {x : PredicateNotation}
    {p p' : PatternTerm} (h : x.Means n p) (h' : x.Means n p') : p = p' := by
  cases h with
  | «variable» v => cases h'; rfl
  | name h => cases h' with
    | name h' => rw [h.unique h']
  | typeWord => cases h'; rfl

/-- Subject and predicate settle what a triple stands for, except for its object. -/
theorem TripleNotation.Means.exists_object {n : QueryNames} {t : TripleNotation}
    {pattern : TriplePattern} {s p : PatternTerm} (h : t.Means n pattern) (hs : t.subject.Means n s)
    (hp : t.predicate.Means n p) : ∃ o, t.object.Means n o ∧ pattern = ⟨s, p, o⟩ := by
  obtain ⟨s', p', o⟩ := pattern
  obtain rfl := h.subject.unique hs
  obtain rfl := h.predicate.unique hp
  exact ⟨o, h.object, rfl⟩

/-- A property with a subject has a triple at least. -/
theorem PropertyNotation.exists_means {n : QueryNames} {S : SubjectNotation} {x : PropertyNotation}
    {ps : List TriplePattern} (h : List.Forall₂ (TripleNotation.Means n) (x.triples S) ps) :
    ∃ s p, S.Means n s ∧ x.predicate.Means n p := by
  obtain ⟨P, o | ⟨o, os⟩⟩ := x
  all_goals
    cases h with
    | cons hx _ => exact ⟨_, _, hx.subject, hx.predicate⟩

/-! ### Terms -/

namespace SelectQuery

@[simp] theorem fail_ne_ok {α : Type} {expected : String} {left : List QueryToken}
    {a : α} : fail expected left ≠ .ok a := by
  unfold fail
  split
  · split <;> exact nofun
  · exact nofun

/-- Something is read at the front, and the rest is left. -/
def Reads {α : Type} (f : (left : List QueryToken) → Querying (α × Shorter left))
    (left : List QueryToken) (a : α) (rest : List QueryToken) : Prop :=
  ∃ h, f left = .ok (a, ⟨rest, h⟩)

theorem reads_subject_iff {n : QueryNames} {left rest : List QueryToken} {s : PatternTerm} :
    Reads (subject n) left s rest ↔
      ∃ x : SubjectNotation, left = x.token :: rest ∧ x.Means n s := by
  constructor
  · rintro ⟨hrest, h⟩
    unfold subject at h
    split at h
    · cases h
      exact ⟨.variable _, rfl, .variable _⟩
    · split at h
      · next iri hiri =>
        obtain ⟨x, iri, rfl, hname, h⟩ := NameNotation.exists_of_bind_eq_ok hiri h
        cases h
        exact ⟨.name x, rfl, .name hname⟩
      · exact absurd h fail_ne_ok
    · exact absurd h fail_ne_ok
  · rintro ⟨x, rfl, hx⟩
    refine ⟨by simp, ?_⟩
    cases hx with
    | «variable» v => rfl
    | @name x iri hname =>
      have hread := NameNotation.read_eq_ok_iff.mpr hname
      cases x with
      | reference text | shortened text =>
        exact bind_eq_ok_iff.mpr ⟨iri, hread, rfl⟩

theorem reads_predicate_iff {n : QueryNames} {left rest : List QueryToken} {p : PatternTerm} :
    Reads (predicate n) left p rest ↔
      ∃ x : PredicateNotation, left = x.token :: rest ∧ x.Means n p := by
  constructor
  · rintro ⟨hrest, h⟩
    unfold predicate at h
    split at h
    · cases h
      exact ⟨.variable _, rfl, .variable _⟩
    · cases h
      exact ⟨.typeWord, rfl, .typeWord⟩
    · split at h
      · next iri hiri =>
        obtain ⟨x, iri, rfl, hname, h⟩ := NameNotation.exists_of_bind_eq_ok hiri h
        cases h
        exact ⟨.name x, rfl, .name hname⟩
      · exact absurd h fail_ne_ok
    · exact absurd h fail_ne_ok
  · rintro ⟨x, rfl, hx⟩
    refine ⟨by simp, ?_⟩
    cases hx with
    | «variable» v => rfl
    | typeWord => rfl
    | @name x iri hname =>
      have hread := NameNotation.read_eq_ok_iff.mpr hname
      cases x with
      | reference text | shortened text =>
        exact bind_eq_ok_iff.mpr ⟨iri, hread, rfl⟩

/-- What has been read as an object is one. -/
theorem exists_of_reads_object {n : QueryNames} {left rest : List QueryToken} {o : PatternTerm}
    (h : Reads (object n) left o rest) :
    ∃ x : ObjectNotation, left = x.tokens ++ rest ∧ x.Means n o := by
  obtain ⟨hrest, h⟩ := h
  unfold object at h
  split at h
  · cases h
    exact ⟨.variable _, rfl, .variable _⟩
  · next raw left =>
    split at h
    · cases h
    · next value hvalue =>
      have hspells := QueryToken.unescape_eq_ok_iff.mp hvalue
      obtain ⟨⟨l, rest', hle⟩, hliteral, h⟩ := exists_of_bind_eq_ok h
      cases h
      unfold textLiteral at hliteral
      split at hliteral
      · split at hliteral
        · next htag =>
          cases hliteral
          exact ⟨.tagged raw _, rfl, .tagged hspells htag⟩
        · cases hliteral
      · split at hliteral
        · next iri hiri =>
          obtain ⟨x, iri, rfl, hname, hliteral⟩ := NameNotation.exists_of_bind_eq_ok hiri hliteral
          cases hliteral
          exact ⟨.typed raw x, rfl, .typed hspells hname⟩
        · exact absurd hliteral fail_ne_ok
      · exact absurd hliteral fail_ne_ok
      · cases hliteral
        exact ⟨.text raw, rfl, .text hspells⟩
  · cases h
    exact ⟨.integer _, rfl, .integer _⟩
  · cases h
    exact ⟨.decimal _, rfl, .decimal _⟩
  · cases h
    exact ⟨.double _, rfl, .double _⟩
  · cases h
    exact ⟨.truth true, rfl, .truth true⟩
  · cases h
    exact ⟨.truth false, rfl, .truth false⟩
  · split at h
    · next iri hiri =>
      obtain ⟨x, iri, rfl, hname, h⟩ := NameNotation.exists_of_bind_eq_ok hiri h
      cases h
      exact ⟨.name x, rfl, .name hname⟩
    · exact absurd h fail_ne_ok
  · exact absurd h fail_ne_ok

/-- A quoted text is read with the language or datatype that follows it. -/
theorem object_quoted {n : QueryNames} {raw : String} {value : List Char}
    {left rest : List QueryToken} {l : Rdf.Literal} {hle : rest.length ≤ left.length}
    (h : QueryToken.Spells raw.toList value)
    (hliteral : textLiteral n (String.ofList value) left = .ok (l, ⟨rest, hle⟩)) :
    Reads (object n) (.quoted raw :: left) (.literal l) rest := by
  have hvalue := QueryToken.unescape_eq_ok_iff.mpr h
  refine ⟨Nat.lt_succ_of_le hle, ?_⟩
  simp only [object, hvalue]
  exact bind_eq_ok_iff.mpr ⟨⟨l, rest, hle⟩, hliteral, rfl⟩

/-- Without a language or a datatype a text is plain. -/
theorem textLiteral_eq_plain {n : QueryNames} {text : String} {rest : List QueryToken}
    (hrest : ∀ t ∈ rest.head?, t ≠ .doubleCaret ∧ ∀ tag, t ≠ .language tag) :
    textLiteral n text rest = .ok (.plain text, ⟨rest, Nat.le_refl _⟩) := by
  rw [textLiteral.eq_def]
  split
  · exact absurd rfl ((hrest _ rfl).2 _)
  · exact absurd rfl (hrest _ rfl).1
  · exact absurd rfl (hrest _ rfl).1
  · rfl

/-- An object is read up to what follows it. -/
theorem reads_object {n : QueryNames} {rest : List QueryToken} {x : ObjectNotation}
    {o : PatternTerm} (hrest : StartsWith [.comma, .semicolon, .dot, .rightBrace] rest)
    (hx : x.Means n o) :
    Reads (object n) (x.tokens ++ rest) o rest := by
  cases hx with
  | «variable» v => exact ⟨Nat.lt_succ_self _, rfl⟩
  | @name x iri hname =>
    have hread := NameNotation.read_eq_ok_iff.mpr hname
    cases x with
    | reference text | shortened text =>
      exact ⟨Nat.lt_succ_self _, bind_eq_ok_iff.mpr ⟨iri, hread, rfl⟩⟩
  | @text raw value h =>
    refine object_quoted h (textLiteral_eq_plain fun t ht => ?_)
    obtain ⟨next, rfl⟩ := List.head?_eq_some_iff.mp ht
    have ht := startsWith_cons.mp hrest
    constructor
    · rintro rfl
      simp at ht
    · rintro tag rfl
      simp at ht
  | @tagged raw tag value h htag => exact object_quoted h (if_pos htag)
  | @typed raw iri value datatype h hdatatype =>
    have hread := NameNotation.read_eq_ok_iff.mpr hdatatype
    cases datatype with
    | reference text | shortened text =>
      exact object_quoted h (bind_eq_ok_iff.mpr ⟨iri, hread, rfl⟩)
  | integer digits => exact ⟨Nat.lt_succ_self _, rfl⟩
  | decimal digits => exact ⟨Nat.lt_succ_self _, rfl⟩
  | double digits => exact ⟨Nat.lt_succ_self _, rfl⟩
  | truth value => cases value <;> exact ⟨Nat.lt_succ_self _, rfl⟩

end SelectQuery

end Ontology
