import Std.Data.String.ToInt
import Ontology.Proofs.RuleTokens
import Ontology.Proofs.Statements

/-!
# The notation of rules

A rule is written with the names of its classes, properties and individuals, its variables behind
question marks and its literals.  Arguments are separated by commas, atoms by commas or carets, and
an arrow stands between body and head.  Here this is said without regard to how a text is read.

## Main definitions

* `World.WritesArgument`, `World.WritesAtom`, `World.WritesAtoms` — what parts of a rule are written
  as; `World.WritesRule` — the same of a rule.
* `World.CanWrite` — the parts of a rule have names, and its literals can be written.

## Main results

* `World.exists_writesRule` — such a rule has a text.
* `World.readRule_written` — **every text of a rule is read as the rule.**
-/

namespace Ontology

open Text

/-! ### Texts of rules -/

namespace RuleToken

/-- A text begins like a name and goes on with characters of a kind. -/
def IsName (accepts : Char → Bool) (text : String) : Prop :=
  ∃ c cs, text.toList = c :: cs ∧ isNameStart c = true ∧ ∀ d ∈ cs, accepts d = true

theorem isName_iff {accepts : Char → Bool} {text : String} : IsName accepts text ↔
    (text.toList.head?.any isNameStart && text.toList.tail.all accepts) = true := by
  cases htext : text.toList with
  | nil => simp [IsName, htext]
  | cons c cs => simp [IsName, htext]

instance (accepts : Char → Bool) (text : String) : Decidable (IsName accepts text) :=
  decidable_of_iff _ isName_iff.symm

/-- The words for equality. -/
def sameWords : List String :=
  ["sameAs", "SameAs"]

/-- The words for inequality. -/
def differentWords : List String :=
  ["differentFrom", "DifferentFrom"]

/-- The words for truth values. -/
def truthWords : List String :=
  ["true", "false"]

end RuleToken

open RuleToken (IsName isEntityChar sameWords differentWords truthWords)

namespace World

/-- What an argument is written as. -/
inductive WritesArgument (w : World) : Argument → String → Prop where
  | variable {v : String} (hv : IsName isNameChar v) : WritesArgument w (.variable v) ("?" ++ v)
  | individual {i : IndividualId} {name : String} (hi : w.lookup? name = some (.individual i))
      (hname : IsName isEntityChar name) (hword : name ∉ truthWords) :
      WritesArgument w (.individual i) name
  | int {n : Int} (hlow : -(Nat.pow 2 63 : Int) ≤ n) (hhigh : n < Nat.pow 2 63) :
      WritesArgument w (.literal (.int n)) (toString n)
  | bool (b : Bool) : WritesArgument w (.literal (.bool b)) (Tree.boolText b)
  | text {s : String} (hquote : '"' ∉ s.toList) (hslash : '\\' ∉ s.toList) :
      WritesArgument w (.literal (.text s)) ("\"" ++ s ++ "\"")

/-- What an atom is written as: a name or a word with one or two arguments. -/
inductive WritesAtom (w : World) : Atom → String → Prop where
  | type {c : ClassId} {a : Argument} {name x : String} (hc : w.lookup? name = some (.class c))
      (hname : IsName isEntityChar name) (ha : w.WritesArgument a x) :
      WritesAtom w (.type c a) (name ++ "(" ++ (x ++ ")"))
  | fact {p : PropertyId} {a b : Argument} {name x y : String}
      (hp : w.lookup? name = some (.property p)) (hname : IsName isEntityChar name)
      (hword : name ∉ sameWords ++ differentWords) (ha : w.WritesArgument a x)
      (hb : w.WritesArgument b y) :
      WritesAtom w (.fact p a b) (name ++ "(" ++ (x ++ ", " ++ (y ++ ")")))
  | same {a b : Argument} {name x y : String} (hname : name ∈ sameWords)
      (ha : w.WritesArgument a x) (hb : w.WritesArgument b y) :
      WritesAtom w (.same a b) (name ++ "(" ++ (x ++ ", " ++ (y ++ ")")))
  | different {a b : Argument} {name x y : String} (hname : name ∈ differentWords)
      (ha : w.WritesArgument a x) (hb : w.WritesArgument b y) :
      WritesAtom w (.different a b) (name ++ "(" ++ (x ++ ", " ++ (y ++ ")")))

/-- What atoms behind another one are written as, each with a comma or a caret in front. -/
inductive WritesFurther (w : World) : List Atom → String → Prop where
  | nil : WritesFurther w [] ""
  | cons {a : Atom} {others : List Atom} {separator x y : String}
      (hseparator : separator = ", " ∨ separator = " ^ ") (ha : w.WritesAtom a x)
      (h : WritesFurther w others y) : WritesFurther w (a :: others) (separator ++ (x ++ y))

/-- What the atoms of a body or of a head are written as. -/
inductive WritesAtoms (w : World) : List Atom → String → Prop where
  | nil : WritesAtoms w [] ""
  | cons {a : Atom} {others : List Atom} {x y : String} (ha : w.WritesAtom a x)
      (h : w.WritesFurther others y) : WritesAtoms w (a :: others) (x ++ y)

/-- What a rule is written as. -/
def WritesRule (w : World) (r : Rule) (text : String) : Prop :=
  ∃ x y, w.WritesAtoms r.body x ∧ w.WritesAtoms r.head y ∧ text = x ++ (" -> " ++ y)

/-! ### Rules that have a text -/

/-- An entity has a name that a rule can hold and that is no word of its own. -/
def HasRuleName (w : World) (e : Entity) : Prop :=
  ∃ name, w.names.get? name = some e ∧ IsName isEntityChar name ∧
    name ∉ sameWords ++ differentWords ++ truthWords

/-- An argument has a text: fractions have none, nor have texts with quotes or backslashes. -/
def CanWriteArgument (w : World) : Argument → Prop
  | .variable v => IsName isNameChar v
  | .individual i => w.HasRuleName (.individual i)
  | .literal (.int n) => -(Nat.pow 2 63 : Int) ≤ n ∧ n < Nat.pow 2 63
  | .literal (.bool _) => True
  | .literal (.text s) => '"' ∉ s.toList ∧ '\\' ∉ s.toList
  | .literal (.float _) => False

/-- An atom has a text. -/
def CanWriteAtom (w : World) : Atom → Prop
  | .type c a => w.HasRuleName (.class c) ∧ w.CanWriteArgument a
  | .fact p a b => w.HasRuleName (.property p) ∧ w.CanWriteArgument a ∧ w.CanWriteArgument b
  | .same a b | .different a b => w.CanWriteArgument a ∧ w.CanWriteArgument b

/-- A rule has a head, and all of its atoms have a text. -/
structure CanWrite (w : World) (r : Rule) : Prop where
  body : ∀ a ∈ r.body, w.CanWriteAtom a
  head : ∀ a ∈ r.head, w.CanWriteAtom a
  hasHead : r.head ≠ []

section Existence

variable {w : World}

theorem exists_writesArgument {a : Argument} (h : w.CanWriteArgument a) :
    ∃ x, w.WritesArgument a x := by
  match a, h with
  | .variable v, hv => exact ⟨_, .variable hv⟩
  | .individual i, ⟨name, hi, hname, hword⟩ =>
    exact ⟨_, .individual (lookup?_of_get? hi) hname fun hmem =>
      hword (List.mem_append_right _ hmem)⟩
  | .literal (.int n), ⟨hlow, hhigh⟩ => exact ⟨_, .int hlow hhigh⟩
  | .literal (.bool b), _ => exact ⟨_, .bool b⟩
  | .literal (.text s), ⟨hquote, hslash⟩ => exact ⟨_, .text hquote hslash⟩

theorem exists_writesAtom {a : Atom} (h : w.CanWriteAtom a) : ∃ x, w.WritesAtom a x := by
  match a, h with
  | .type c a, ⟨⟨name, hc, hname, _⟩, ha⟩ =>
    obtain ⟨x, hx⟩ := exists_writesArgument ha
    exact ⟨_, .type (lookup?_of_get? hc) hname hx⟩
  | .fact p a b, ⟨⟨name, hp, hname, hword⟩, ha, hb⟩ =>
    obtain ⟨x, hx⟩ := exists_writesArgument ha
    obtain ⟨y, hy⟩ := exists_writesArgument hb
    exact ⟨_, .fact (lookup?_of_get? hp) hname (fun hmem => hword (List.mem_append_left _ hmem)) hx
      hy⟩
  | .same a b, ⟨ha, hb⟩ =>
    obtain ⟨x, hx⟩ := exists_writesArgument ha
    obtain ⟨y, hy⟩ := exists_writesArgument hb
    exact ⟨_, .same List.mem_cons_self hx hy⟩
  | .different a b, ⟨ha, hb⟩ =>
    obtain ⟨x, hx⟩ := exists_writesArgument ha
    obtain ⟨y, hy⟩ := exists_writesArgument hb
    exact ⟨_, .different List.mem_cons_self hx hy⟩

theorem exists_writesFurther {atoms : List Atom} (h : ∀ a ∈ atoms, w.CanWriteAtom a) :
    ∃ x, w.WritesFurther atoms x := by
  induction atoms with
  | nil => exact ⟨_, .nil⟩
  | cons a others ih =>
    obtain ⟨x, hx⟩ := exists_writesAtom (h a List.mem_cons_self)
    obtain ⟨y, hy⟩ := ih fun b hb => h b (List.mem_cons_of_mem _ hb)
    exact ⟨_, .cons (.inl rfl) hx hy⟩

theorem exists_writesAtoms {atoms : List Atom} (h : ∀ a ∈ atoms, w.CanWriteAtom a) :
    ∃ x, w.WritesAtoms atoms x := by
  cases atoms with
  | nil => exact ⟨_, .nil⟩
  | cons a others =>
    obtain ⟨x, hx⟩ := exists_writesAtom (h a List.mem_cons_self)
    obtain ⟨y, hy⟩ := exists_writesFurther fun b hb => h b (List.mem_cons_of_mem _ hb)
    exact ⟨_, .cons hx hy⟩

/-- A rule whose parts have texts has one. -/
theorem exists_writesRule {r : Rule} (h : w.CanWrite r) : ∃ text, w.WritesRule r text := by
  obtain ⟨x, hx⟩ := exists_writesAtoms h.body
  obtain ⟨y, hy⟩ := exists_writesAtoms h.head
  exact ⟨_, x, y, hx, hy, rfl⟩

end Existence

end World

/-! ### Tokens of parts -/

namespace RuleToken

theorem lexesTo_leftParen : LexesTo read "(" [.leftParen] :=
  fun _ _ hrest => hrest.token '(' [] rfl

theorem lexesTo_rightParen : LexesTo read ")" [.rightParen] :=
  fun _ _ hrest => hrest.token ')' [] rfl

theorem lexesTo_comma : LexesTo read ", " [.comma] :=
  fun _ _ hrest => (hrest.blank ' ' rfl).token ',' [] rfl

theorem lexesTo_caret : LexesTo read " ^ " [.caret] :=
  fun _ _ hrest => ((hrest.blank ' ' rfl).token '^' [] rfl).blank ' ' rfl

theorem lexesTo_arrow : LexesTo read " -> " [.arrow] :=
  fun _ _ hrest => ((hrest.blank ' ' rfl).token '-' ['>'] rfl).blank ' ' rfl

/-- A comma or a closing parenthesis stands behind an argument. -/
def IsMark (mark : String) : Prop :=
  mark = ", " ∨ mark = ")"

/-- None of the characters that an argument could go on with are marks. -/
theorem IsMark.stops {mark : String} (h : IsMark mark) {accepts : Char → Bool}
    (haccepts : accepts ',' = false ∧ accepts ')' = false) (rest : List Char) :
    Stops accepts (mark.toList ++ rest) := by
  rcases h with rfl | rfl
  · exact stops_cons.mpr haccepts.1
  · exact stops_cons.mpr haccepts.2

variable {mark : String} {ts : List RuleToken}

theorem lexesTo_name {name : String} (hname : IsName isEntityChar name)
    (hstops : ∀ rest, Stops isEntityChar (mark.toList ++ rest)) (hmark : LexesTo read mark ts) :
    LexesTo read (name ++ mark) (.name name :: ts) := by
  obtain ⟨c, cs, htext, hc, hcs⟩ := hname
  have hname : name = String.ofList (c :: cs) := by rw [← htext, String.ofList_toList]
  refine hmark.token htext fun rest => ?_
  rw [hname]
  exact read_name hc hcs (hstops rest)

end RuleToken

open RuleToken (lexesTo_name lexesTo_leftParen lexesTo_rightParen lexesTo_comma lexesTo_caret
  lexesTo_arrow IsMark)

namespace World

variable {w : World}

/-- An argument is one token in front of a mark, and this token is read as the argument. -/
theorem exists_token_of_writesArgument {a : Argument} {x : String} (h : w.WritesArgument a x) :
    ∃ t, (∀ {mark ts}, IsMark mark → LexesTo RuleToken.read mark ts →
        LexesTo RuleToken.read (x ++ mark) (t :: ts)) ∧
      ∀ (r : RuleReader) left, r.world = w → r.argument (t :: left) = .ok a := by
  cases h with
  | @«variable» v hv =>
    obtain ⟨c, cs, htext, hc, hcs⟩ := hv
    have hv : v = String.ofList (c :: cs) := by rw [← htext, String.ofList_toList]
    refine ⟨.variable v, fun hmark hlexes => ?_, fun r left hr => rfl⟩
    have hmarked : ("?" ++ v).toList = '?' :: c :: cs := by rw [String.toList_append, htext]; rfl
    refine hlexes.token hmarked fun rest => ?_
    rw [hv]
    exact RuleToken.read_variable hc hcs (hmark.stops (by decide) rest)
  | individual hi hname hword =>
    refine ⟨.name x, fun hmark hlexes => lexesTo_name hname (hmark.stops (by decide)) hlexes,
      fun r left hr => ?_⟩
    subst hr
    rw [RuleReader.argument.eq_def, List.head?_cons]
    -- the cases of the two words for truth values are excluded
    split
    case h_5 heq =>
      cases heq
      exact absurd (by decide) hword
    case h_6 heq =>
      cases heq
      exact absurd (by decide) hword
    case h_7 heq =>
      cases heq
      rw [hi]
    case h_8 hne => exact absurd rfl (hne x)
    all_goals next heq => cases heq
  | @int n hlow hhigh =>
    obtain ⟨c, digits, htext, hread⟩ := RuleToken.exists_read_integer n
    refine ⟨.integer (toString n), fun hmark hlexes => ?_, fun r left hr => ?_⟩
    · exact hlexes.token htext fun rest => hread (hmark.stops (by decide) rest)
    · have hvalue : (toString n).toInt? = some n := Int.toInt?_repr n
      simp only [RuleReader.argument, List.head?_cons, hvalue]
      exact if_pos ⟨hlow, hhigh⟩
  | bool b =>
    refine ⟨.name (Tree.boolText b), fun hmark hlexes => ?_, fun r left hr => ?_⟩
    · have hname : IsName isEntityChar (Tree.boolText b) := by
        cases b <;> decide
      exact lexesTo_name hname (hmark.stops (by decide)) hlexes
    · cases b <;> rfl
  | @text s hquote hslash =>
    have hraw : IsQuotable '"' true s.toList := isQuotable_of_not_mem hquote hslash fun _ => rfl
    refine ⟨.quoted s, fun hmark hlexes => ?_, fun r left hr => ?_⟩
    · have hquoted : ("\"" ++ s ++ "\"").toList = '"' :: (s.toList ++ ['"']) := by
        rw [String.toList_append, String.toList_append]
        rfl
      refine hlexes.token hquoted fun rest => ?_
      have hread := RuleToken.read_quoted hraw
      rw [String.ofList_toList] at hread
      exact hread _
    · exact RuleReader.argument_quoted_eq_iff.mpr (RuleToken.unescape_eq_self hslash)

end World

/-! ### Reading tokens -/

namespace RuleReader

variable {r : RuleReader} {predicate : String} {t u : RuleToken} {a b : Argument} {atom : Atom}

theorem atom_one (ha : ∀ left, r.argument (t :: left) = .ok a)
    (hatom : ∀ position, r.atomOf predicate position [a] = .ok atom) (left : List RuleToken) :
    ∃ h, r.atom ([.name predicate, .leftParen, t, .rightParen] ++ left) =
      .ok (atom, ⟨left, h⟩) := by
  refine ⟨by simp; omega, ?_⟩
  simp only [List.cons_append, List.nil_append, RuleReader.atom, ha, List.tail_cons, arguments]
  refine bind_eq_ok_iff.mpr ⟨a, rfl, bind_eq_ok_iff.mpr ⟨_, rfl, ?_⟩⟩
  exact bind_eq_ok_iff.mpr ⟨atom, hatom _, rfl⟩

theorem atom_two (ha : ∀ left, r.argument (t :: left) = .ok a)
    (hb : ∀ left, r.argument (u :: left) = .ok b)
    (hatom : ∀ position, r.atomOf predicate position [a, b] = .ok atom) (left : List RuleToken) :
    ∃ h, r.atom ([.name predicate, .leftParen, t, .comma, u, .rightParen] ++ left) =
      .ok (atom, ⟨left, h⟩) := by
  refine ⟨by simp; omega, ?_⟩
  simp only [List.cons_append, List.nil_append, RuleReader.atom, ha, List.tail_cons, arguments, hb]
  refine bind_eq_ok_iff.mpr ⟨a, rfl, bind_eq_ok_iff.mpr ⟨_, rfl, ?_⟩⟩
  exact bind_eq_ok_iff.mpr ⟨atom, hatom _, rfl⟩

/-- Where an atom is read, there are atoms. -/
theorem atoms_of_atom {left : List RuleToken} {rest : Shorter left}
    (h : r.atom left = .ok (atom, rest)) : r.atoms left = (do
      let (others, left) ← r.moreAtoms rest.1
      return (atom :: others, left)) := by
  rw [atoms.eq_def]
  split
  · exact absurd h (by rw [RuleReader.atom.eq_def]; exact fail_ne_ok)
  · exact absurd h (by rw [RuleReader.atom.eq_def]; exact fail_ne_ok)
  · rw [h]
    rfl

/-- Behind a comma or a caret, where an atom is read, there are more atoms. -/
theorem moreAtoms_of_atom {left : List RuleToken} {rest : Shorter left}
    (ht : t = .comma ∨ t = .caret) (h : r.atom left = .ok (atom, rest)) :
    r.moreAtoms (t :: left) = (do
      let (others, left) ← r.moreAtoms rest.1
      return (atom :: others, left)) := by
  have harrow : t ≠ .arrow := by
    rcases ht with rfl | rfl <;> exact nofun
  rw [moreAtoms]
  · rw [if_pos ht, h]
    rfl
  · exact harrow

end RuleReader

namespace World

variable {w : World}

/-- The tokens of a text are read as an atom, and the rest is left. -/
def ReadsAtom (w : World) (a : Atom) (x : String) : Prop :=
  ∃ ts, LexesTo RuleToken.read x ts ∧ ∀ (r : RuleReader) left, r.world = w →
    ∃ hlt, r.atom (ts ++ left) = .ok (a, ⟨left, hlt⟩)

theorem lexesTo_leftParen_name {name : String} (hname : IsName isEntityChar name) :
    LexesTo RuleToken.read (name ++ "(") [.name name, .leftParen] :=
  lexesTo_name hname (fun _ => stops_cons.mpr rfl) lexesTo_leftParen

theorem readsAtom_one {name x : String} {a : Argument} {atom : Atom}
    (hname : IsName isEntityChar name) (ha : w.WritesArgument a x)
    (hatom : ∀ (r : RuleReader) position, r.world = w → r.atomOf name position [a] = .ok atom) :
    w.ReadsAtom atom (name ++ "(" ++ (x ++ ")")) := by
  obtain ⟨t, hlexes, hread⟩ := exists_token_of_writesArgument ha
  refine ⟨[.name name, .leftParen, t, .rightParen], ?_, fun r left hr => ?_⟩
  · exact (lexesTo_leftParen_name hname).append (hlexes (.inr rfl) lexesTo_rightParen)
  · exact RuleReader.atom_one (fun left => hread r left hr)
      (fun position => hatom r position hr) left

theorem readsAtom_two {name x y : String} {a b : Argument} {atom : Atom}
    (hname : IsName isEntityChar name) (ha : w.WritesArgument a x) (hb : w.WritesArgument b y)
    (hatom : ∀ (r : RuleReader) position, r.world = w → r.atomOf name position [a, b] = .ok atom) :
    w.ReadsAtom atom (name ++ "(" ++ (x ++ ", " ++ (y ++ ")"))) := by
  obtain ⟨t, hlexes, hread⟩ := exists_token_of_writesArgument ha
  obtain ⟨u, hlexes', hread'⟩ := exists_token_of_writesArgument hb
  refine ⟨[.name name, .leftParen, t, .comma, u, .rightParen], ?_, fun r left hr => ?_⟩
  · exact (lexesTo_leftParen_name hname).append
      ((hlexes (.inl rfl) lexesTo_comma).append (hlexes' (.inr rfl) lexesTo_rightParen))
  · exact RuleReader.atom_two (fun left => hread r left hr) (fun left => hread' r left hr)
      (fun position => hatom r position hr) left

/-- What an atom is written as is read as the atom. -/
theorem readsAtom_of_writesAtom {a : Atom} {x : String} (h : w.WritesAtom a x) :
    w.ReadsAtom a x := by
  cases h with
  | type hc hname ha =>
    refine readsAtom_one hname ha ?_
    rintro r position rfl
    simp only [RuleReader.atomOf, hc]
  | @fact p a b name x y hp hname hword ha hb =>
    refine readsAtom_two hname ha hb ?_
    rintro r position rfl
    have hsame : ¬(name = "sameAs" ∨ name = "SameAs") := fun h =>
      hword (List.mem_append_left _ (List.mem_pair.mpr h))
    have hdifferent : ¬(name = "differentFrom" ∨ name = "DifferentFrom") := fun h =>
      hword (List.mem_append_right _ (List.mem_pair.mpr h))
    simp only [RuleReader.atomOf, if_neg hsame, if_neg hdifferent, hp]
  | @same a b name x y hname ha hb =>
    have hsame : name = "sameAs" ∨ name = "SameAs" := List.mem_pair.mp hname
    refine readsAtom_two ?_ ha hb fun r position _ => ?_
    · rcases hsame with rfl | rfl <;> decide
    · simp only [RuleReader.atomOf, if_pos hsame]
  | @different a b name x y hname ha hb =>
    have hdifferent : name = "differentFrom" ∨ name = "DifferentFrom" := List.mem_pair.mp hname
    refine readsAtom_two ?_ ha hb fun r position _ => ?_
    · rcases hdifferent with rfl | rfl <;> decide
    · have hsame : ¬(name = "sameAs" ∨ name = "SameAs") := by
        rcases hdifferent with rfl | rfl <;> decide
      simp only [RuleReader.atomOf, if_neg hsame, if_pos hdifferent]

/-! ### Reading rules -/

/-- Atoms end where the text does, or at an arrow. -/
def EndsAtoms (left : List RuleToken) : Prop :=
  left = [] ∨ ∃ rest, left = .arrow :: rest

/-- Further atoms are cut into tokens, and these are read up to the end. -/
theorem exists_tokens_of_writesFurther {atoms : List Atom} {x : String}
    (h : w.WritesFurther atoms x) :
    ∃ ts, LexesTo RuleToken.read x ts ∧ ∀ (r : RuleReader) left, r.world = w → EndsAtoms left →
      r.moreAtoms (ts ++ left) = .ok (atoms, left) := by
  -- by induction on the atoms, for the tokens of one atom are read whatever is left behind them
  induction h with
  | nil =>
    refine ⟨[], fun _ _ hrest => hrest, fun r left hr hleft => ?_⟩
    rcases hleft with rfl | ⟨rest, rfl⟩ <;> rw [List.nil_append, RuleReader.moreAtoms]
  | @cons a others separator x y hseparator ha h ih =>
    obtain ⟨ts, hlexes, hread⟩ := readsAtom_of_writesAtom ha
    obtain ⟨ts', hlexes', hread'⟩ := ih
    obtain ⟨t, ht, hseparates⟩ : ∃ t : RuleToken, LexesTo RuleToken.read separator [t] ∧
        (t = .comma ∨ t = .caret) := by
      rcases hseparator with rfl | rfl
      · exact ⟨_, lexesTo_comma, .inl rfl⟩
      · exact ⟨_, lexesTo_caret, .inr rfl⟩
    refine ⟨[t] ++ (ts ++ ts'), ht.append (hlexes.append hlexes'), fun r left hr hleft => ?_⟩
    obtain ⟨hlt, hatom⟩ := hread r (ts' ++ left) hr
    rw [List.append_assoc, List.append_assoc, List.singleton_append,
      RuleReader.moreAtoms_of_atom hseparates hatom]
    exact bind_eq_ok_iff.mpr ⟨_, hread' r left hr hleft, rfl⟩

/-- Atoms are cut into tokens, and these are read up to the end. -/
theorem exists_tokens_of_writesAtoms {atoms : List Atom} {x : String} (h : w.WritesAtoms atoms x) :
    ∃ ts, LexesTo RuleToken.read x ts ∧ ∀ (r : RuleReader) left, r.world = w → EndsAtoms left →
      r.atoms (ts ++ left) = .ok (atoms, left) := by
  cases h with
  | nil =>
    refine ⟨[], fun _ _ hrest => hrest, fun r left hr hleft => ?_⟩
    rcases hleft with rfl | ⟨rest, rfl⟩ <;> rfl
  | cons ha h =>
    obtain ⟨ts, hlexes, hread⟩ := readsAtom_of_writesAtom ha
    obtain ⟨ts', hlexes', hread'⟩ := exists_tokens_of_writesFurther h
    refine ⟨ts ++ ts', hlexes.append hlexes', fun r left hr hleft => ?_⟩
    obtain ⟨hlt, hatom⟩ := hread r (ts' ++ left) hr
    rw [List.append_assoc, RuleReader.atoms_of_atom hatom]
    exact bind_eq_ok_iff.mpr ⟨_, hread' r left hr hleft, rfl⟩

/-- A text of a rule with a head is read as the rule. -/
theorem readRule_of_writesRule {r : Rule} {text : String} (h : w.WritesRule r text)
    (hhead : r.head ≠ []) : w.readRule r.name text r.label = .ok { r with source := text } := by
  obtain ⟨x, y, hx, hy, rfl⟩ := h
  obtain ⟨ts, hlexes, hbody⟩ := exists_tokens_of_writesAtoms hx
  obtain ⟨ts', hlexes', hread⟩ := exists_tokens_of_writesAtoms hy
  have htokens := (hlexes.append (lexesTo_arrow.append hlexes')).lexes 0
  have hparts : ∀ r' : RuleReader, r'.world = w →
      r'.bodyAndHead (ts ++ ([.arrow] ++ ts')) = .ok (r.body, r.head) := by
    intro r' hr'
    -- the body ends at the arrow, the head where the text does
    have hempty := hread r' [] hr' (.inl rfl)
    rw [List.append_nil] at hempty
    refine bind_eq_ok_iff.mpr ⟨_, hbody r' _ hr' (.inr ⟨ts', rfl⟩), ?_⟩
    refine bind_eq_ok_iff.mpr ⟨_, hempty, ?_⟩
    simp [hhead]
    rfl
  rw [readRule, htokens]
  exact bind_eq_ok_iff.mpr ⟨_, hparts _ rfl, rfl⟩

/-- **A rule whose parts have names has a text, and each of its texts is read as the rule.** -/
theorem readRule_written {r : Rule} (h : w.CanWrite r) :
    (∃ text, w.WritesRule r text) ∧ ∀ text, w.WritesRule r text →
      w.readRule r.name text r.label = .ok { r with source := text } :=
  ⟨exists_writesRule h, fun _ htext => readRule_of_writesRule htext h.hasHead⟩

/-! ### An inn -/

/-- Guests of an inn owe amounts and leave notes. -/
def innDocument : Tree :=
  .sequence [
    .object [("owl_class", .object [("Guest", .object [])])],
    .object [("owl_individual", .object [("kim", .object [
      ("types", .sequence [.string "Guest"])])])],
    .object [("owl_data_property", .object [("owes", .object [
      ("Domain", .string "Guest"), ("Range", .string "int")])])],
    .object [("owl_data_property", .object [("note:left", .object [
      ("Domain", .string "Guest"), ("Range", .string "str")])])]]

/-- The ontology of the document. -/
def inn : World :=
  (load {} {} "" innDocument).toOption.getD default

theorem load_innDocument : load {} {} "" innDocument = .ok inn :=
  eq_ok_of_isSome (by decide +kernel)

/-- Who owes less than nothing and left a note is Kim. -/
def innRule : Rule where
  name := "refund"
  source := ""
  body := [
    .type ⟨0⟩ (.variable "x"),
    .fact ⟨0⟩ (.variable "x") (.literal (.int (-7))),
    .fact ⟨1⟩ (.variable "x") (.literal (.text "paid, (twice) ^ -> kim"))]
  head := [
    .same (.variable "x") (.individual ⟨0⟩),
    .fact ⟨0⟩ (.individual ⟨0⟩) (.literal (.bool false))]

/-- One of its texts, with both separators and with marks inside of the note. -/
def innText : String :=
  "Guest(?x), owes(?x, -7) ^ note:left(?x, \"paid, (twice) ^ -> kim\")" ++
    " -> SameAs(?x, kim), owes(kim, false)"

theorem readRule_written_inn :
    load {} {} "" innDocument = .ok inn ∧ inn.CanWrite innRule ∧ inn.WritesRule innRule innText ∧
    inn.readRule "refund" innText none = .ok { innRule with source := innText } := by
  have hnames : inn.names.get? "Guest" = some (.class ⟨0⟩) ∧
      inn.names.get? "kim" = some (.individual ⟨0⟩) ∧
      inn.names.get? "owes" = some (.property ⟨0⟩) ∧
      inn.names.get? "note:left" = some (.property ⟨1⟩) := by
    decide +kernel
  obtain ⟨hguest, hkim, howes, hleft⟩ := hnames
  have hx : IsName isNameChar "x" := by decide
  have hguest' : IsName isEntityChar "Guest" := by decide
  have hkim' : IsName isEntityChar "kim" := by decide
  have howes' : IsName isEntityChar "owes" := by decide
  have hleft' : IsName isEntityChar "note:left" := by decide
  have hrule : inn.CanWrite innRule := by
    refine ⟨?_, ?_, List.cons_ne_nil _ _⟩
    · simp only [innRule, List.forall_mem_cons]
      exact ⟨⟨⟨_, hguest, hguest', by decide⟩, hx⟩,
        ⟨⟨_, howes, howes', by decide⟩, hx, by decide, by decide⟩,
        ⟨⟨_, hleft, hleft', by decide⟩, hx, by decide, by decide⟩, by simp⟩
    · simp only [innRule, List.forall_mem_cons]
      exact ⟨⟨hx, _, hkim, hkim', by decide⟩,
        ⟨⟨_, howes, howes', by decide⟩, ⟨_, hkim, hkim', by decide⟩, trivial⟩, by simp⟩
  have htext : inn.WritesRule innRule innText := by
    have hthem : inn.WritesArgument (.variable "x") ("?" ++ "x") := .variable hx
    have hher : inn.WritesArgument (.individual ⟨0⟩) "kim" :=
      .individual (lookup?_of_get? hkim) hkim' (by decide)
    have hbody : inn.WritesAtoms innRule.body _ :=
      .cons (.type (lookup?_of_get? hguest) hguest' hthem) (.cons (.inl rfl)
        (.fact (lookup?_of_get? howes) howes' (by decide) hthem (.int (by decide) (by decide)))
        (.cons (.inr rfl) (.fact (lookup?_of_get? hleft) hleft' (by decide) hthem
          (.text (by decide) (by decide))) .nil))
    have hhead : inn.WritesAtoms innRule.head _ :=
      .cons (.same (List.mem_pair.mpr (.inr rfl)) hthem hher) (.cons (.inl rfl)
        (.fact (lookup?_of_get? howes) howes' (by decide) hher (.bool false)) .nil)
    exact ⟨_, _, hbody, hhead, by decide +kernel⟩
  exact ⟨load_innDocument, hrule, htext, (readRule_written hrule).2 _ htext⟩

end World

end Ontology
