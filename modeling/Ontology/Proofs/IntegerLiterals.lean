import Mathlib.Data.List.TakeWhile
import Ontology.Proofs.Rounding

/-!
# Integers in queries

A number in a query is compared with one of the graph by the doubles that the two are read as.  A
double has 53 bits, so of two integers with more bits than that one may be found for the other.

## Main definitions

* `WritesNatural`, `WritesInteger` — decimal digits, and digits behind a sign, with the numbers that
  they stand for.

## Main results

* `Binary64.exists_ofText?` — an integer is read as the nearest double.
* `Rdf.Literal.sameAs_integers` — **integers are the same if they are rounded to one double**, so
  below `2 ^ 53` if they are equal.
* `Rdf.Literal.sameAs_neighbours` — two integers that are found for each other.
-/

namespace Ontology

/-! ### Digits -/

/-- Decimal digits with the number that they stand for: a further digit behind them makes it ten
times as great and counts itself. -/
inductive WritesNatural : List Char → ℕ → Prop
  | digit {c : Char} (hc : c.isDigit = true) : WritesNatural [c] (c.toNat - '0'.toNat)
  | append {cs : List Char} {n : ℕ} {c : Char} (h : WritesNatural cs n) (hc : c.isDigit = true) :
    WritesNatural (cs ++ [c]) (10 * n + (c.toNat - '0'.toNat))

/-- A text of digits, behind a sign or without one, with the integer that it stands for. -/
inductive WritesInteger : String → ℤ → Prop
  | unsigned {cs : List Char} {n : ℕ} (h : WritesNatural cs n) :
    WritesInteger (String.ofList cs) n
  | plus {cs : List Char} {n : ℕ} (h : WritesNatural cs n) :
    WritesInteger (String.ofList ('+' :: cs)) n
  | minus {cs : List Char} {n : ℕ} (h : WritesNatural cs n) :
    WritesInteger (String.ofList ('-' :: cs)) (-n)

namespace Binary64

theorem digitsValue_append_singleton (cs : List Char) (c : Char) :
    digitsValue (cs ++ [c]) = 10 * digitsValue cs + (c.toNat - '0'.toNat) := by
  rw [digitsValue, List.foldl_append, Nat.mul_comm]
  rfl

/-- Digits stand for the value that is read from left to right. -/
theorem writesNatural_iff {cs : List Char} {n : ℕ} :
    WritesNatural cs n ↔ cs ≠ [] ∧ (∀ c ∈ cs, c.isDigit = true) ∧ digitsValue cs = n := by
  constructor
  · intro h
    induction h with
    | @digit c hc => simpa [digitsValue] using hc
    | @append cs n c h hc ih =>
      obtain ⟨-, hcs, hn⟩ := ih
      refine ⟨by simp, ?_, by rw [digitsValue_append_singleton, hn]⟩
      simpa [or_imp, forall_and, hc] using hcs
  · rintro ⟨hne, hcs, rfl⟩
    induction cs using List.reverseRecOn with
    | nil => exact absurd rfl hne
    | append_singleton cs c ih =>
      rw [List.forall_mem_append] at hcs
      have hc : c.isDigit = true := hcs.2 c List.mem_cons_self
      rcases eq_or_ne cs [] with rfl | hne'
      · simpa [digitsValue] using WritesNatural.digit hc
      · rw [digitsValue_append_singleton]
        exact .append (ih hne' hcs.1) hc

/-! ### Reading integers -/

variable {cs : List Char} {n : ℕ}

theorem toLower_of_isDigit {c : Char} (hc : c.isDigit = true) : c.toLower = c := by
  simp only [Char.isDigit, Bool.and_eq_true, decide_eq_true_eq] at hc
  have hnine : c.val.toNat ≤ '9'.val.toNat := UInt32.le_iff_toNat_le.mp hc.2
  refine dif_neg fun hupper => ?_
  have hletter : 'A'.val.toNat ≤ c.val.toNat := UInt32.le_iff_toNat_le.mp hupper.1
  exact absurd (hletter.trans hnine) (by decide)

/-- Digits behind a sign are read as the double of their value. -/
theorem decimalPart?_of_writesNatural (negative : Bool) (h : WritesNatural cs n) :
    decimalPart? negative cs = some (ofDecimal negative n 0) := by
  obtain ⟨hne, hcs, rfl⟩ := writesNatural_iff.mp h
  have htake : cs.takeWhile Char.isDigit = cs := List.takeWhile_eq_self_iff.mpr hcs
  have hdrop : cs.dropWhile Char.isDigit = [] := List.dropWhile_eq_nil_iff.mpr hcs
  rw [decimalPart?, htake, hdrop]
  dsimp only
  rw [if_neg (by simp [hne]), List.append_nil]
  rfl

/-- Digits are none of the words for what is no decimal. -/
theorem ofText?_of_writesNatural {text : String} {negative : Bool}
    (htext : takeSign text.toList = (negative, cs)) (h : WritesNatural cs n) :
    ofText? text = some (ofDecimal negative n 0) := by
  obtain ⟨hne, hcs, -⟩ := writesNatural_iff.mp h
  have hlower : cs.map Char.toLower = cs :=
    List.map_congr_left (fun c hc => toLower_of_isDigit (hcs c hc)) |>.trans (List.map_id' cs)
  have hword (word : List Char) (hword : word.all Char.isDigit = false) :
      String.ofList cs ≠ String.ofList word := by
    intro heq
    rw [String.ofList_inj] at heq
    rw [← heq, List.all_eq_true.mpr hcs] at hword
    cases hword
  rw [ofText?, htext]
  dsimp only
  rw [hlower]
  split
  · next heq => exact absurd heq (hword ['i', 'n', 'f'] rfl)
  · next heq =>
    exact absurd heq (hword ['i', 'n', 'f', 'i', 'n', 'i', 't', 'y'] rfl)
  · next heq => exact absurd heq (hword ['n', 'a', 'n'] rfl)
  · exact decimalPart?_of_writesNatural negative h

/-- Digits with a sign are the nearest double of their value. -/
theorem isNearest_ofDecimal (negative : Bool) (n : ℕ) :
    (ofDecimal negative n 0).IsNearest (sign negative * n) := by
  have hratio (num : ℕ) : (ofRatio negative num 1).IsNearest (sign negative * num) := by
    simpa using isNearest_ofRatio negative num Nat.one_pos
  rw [ofDecimal, zero_add]
  split
  · next hzero =>
    obtain rfl : n = 0 := hzero.resolve_right (by omega)
    exact hratio 0
  split
  · next hlong =>
    -- so many digits that the number is beyond all doubles
    have hlarge : 2 ^ 1024 ≤ n := by
      by_contra hlt
      have hten : n < 10 ^ 400 := lt_of_lt_of_le (Nat.lt_of_not_le hlt) (by decide +kernel)
      have := Nat.toDigits_length 10 n 400 (by omega) hten
      omega
    refine .of_precedes (view_ofMagnitude_ne_nan le_rfl) fun y hy => ?_
    exact infinity_precedes (by exact_mod_cast hlarge) hy
  · rw [if_neg (by decide)]
    simpa using hratio n

/-- **An integer is read as the nearest double.** -/
theorem exists_ofText? {text : String} {m : ℤ} (h : WritesInteger text m) :
    ∃ x, ofText? text = some x ∧ x.IsNearest m := by
  cases h with
  | @unsigned cs n h =>
    have hsign : takeSign (String.ofList cs).toList = (false, cs) := by
      obtain ⟨hne, hcs, -⟩ := writesNatural_iff.mp h
      obtain ⟨c, cs, rfl⟩ := List.exists_cons_of_ne_nil hne
      have hc : c.isDigit = true := hcs c List.mem_cons_self
      rw [String.toList_ofList, takeSign.eq_def]
      split
      · next heq => cases heq; cases hc
      · next heq => cases heq; cases hc
      · rfl
    refine ⟨_, ofText?_of_writesNatural hsign h, ?_⟩
    simpa [sign] using isNearest_ofDecimal false n
  | @plus cs n h =>
    refine ⟨_, ofText?_of_writesNatural (by rw [String.toList_ofList]; rfl) h, ?_⟩
    simpa [sign] using isNearest_ofDecimal false n
  | @minus cs n h =>
    refine ⟨_, ofText?_of_writesNatural (by rw [String.toList_ofList]; rfl) h, ?_⟩
    simpa [sign] using isNearest_ofDecimal true n

end Binary64

/-! ### Integers of queries and graphs -/

namespace Rdf

/-- **Two integers, in whatever form they are written, are the same if and only if one double is the
nearest to both.**  Equal ones always are; and if one of them lies between `-2 ^ 53` and `2 ^ 53`,
only equal ones are. -/
theorem Literal.sameAs_integers {s t : String} {m n : ℤ} (hs : WritesInteger s m)
    (ht : WritesInteger t n) :
    ((Literal.typed s xsd.integer).sameAs (.typed t xsd.integer) = true ↔
        ∃ x : Binary64, x.IsNearest m ∧ x.IsNearest n) ∧
      (m = n → (Literal.typed s xsd.integer).sameAs (.typed t xsd.integer) = true) ∧
      (m.natAbs < 2 ^ 53 ∨ n.natAbs < 2 ^ 53 →
        (Literal.typed s xsd.integer).sameAs (.typed t xsd.integer) = true → m = n) := by
  obtain ⟨x, hx, hxm⟩ := Binary64.exists_ofText? hs
  obtain ⟨y, hy, hyn⟩ := Binary64.exists_ofText? ht
  have hnumeric : xsd.integer ∈ xsd.numeric := by decide
  have hnumber (text : String) :
      (Literal.typed text xsd.integer).number? = Binary64.ofText? text := by
    rw [Literal.number?, if_pos hnumeric]
  have hplaces := Binary64.sameValue_iff_position hxm.isNumber hyn.isNumber
  have hvalue : (Literal.typed s xsd.integer).sameAs (.typed t xsd.integer) = true ↔
      x.sameValue y = true := by
    rw [Literal.sameAs_iff, hnumber, hnumber, hx, hy]
    constructor
    · rintro (heq | ⟨_, _, ⟨⟩, ⟨⟩, h⟩)
      · obtain rfl : s = t := (Literal.typed.inj heq).1
        obtain rfl : x = y := Option.some.inj (hx.symm.trans hy)
        exact hplaces.mpr rfl
      · exact h
    · exact fun h => .inr ⟨x, y, rfl, rfl, h⟩
  have hnearest : x.sameValue y = true ↔ ∃ x : Binary64, x.IsNearest m ∧ x.IsNearest n := by
    constructor
    · exact fun h => ⟨y, hxm.congr h, hyn⟩
    · rintro ⟨z, hzm, hzn⟩
      rw [hplaces, hxm.position_eq hzm, hyn.position_eq hzn]
  rw [hvalue]
  refine ⟨hnearest, ?_, ?_⟩
  · rintro rfl
    exact hplaces.mpr (hxm.position_eq hyn)
  · intro hfew hsame
    obtain ⟨z, hzm, hzn⟩ := hnearest.mp hsame
    rcases hfew with hm | hn
    · exact hzm.eq_of_natAbs_lt hm hzn
    · exact (hzn.eq_of_natAbs_lt hn hzm).symm

/-- Signs and leading zeros do not matter, and below `2 ^ 53` different integers differ. -/
theorem Literal.sameAs_integers_forms :
    WritesInteger "+0042" 42 ∧ WritesInteger "42" 42 ∧ WritesInteger "-42" (-42) ∧
      (Literal.typed "+0042" xsd.integer).sameAs (.typed "42" xsd.integer) = true ∧
      ¬(Literal.typed "-42" xsd.integer).sameAs (.typed "42" xsd.integer) = true := by
  have hdigits : WritesNatural ['4', '2'] 42 := .append (.digit rfl) rfl
  have hzeros : WritesNatural ['0', '0', '4', '2'] 42 :=
    .append (.append (.append (.digit rfl) rfl) rfl) rfl
  have hpadded : WritesInteger "+0042" 42 := .plus hzeros
  have hplain : WritesInteger "42" 42 := .unsigned hdigits
  have hminus : WritesInteger "-42" (-42) := .minus hdigits
  refine ⟨hpadded, hplain, hminus, (sameAs_integers hpadded hplain).2.1 rfl, fun h => ?_⟩
  exact absurd ((sameAs_integers hminus hplain).2.2 (.inl (by decide)) h) (by decide)

/-- There is no double at `2 ^ 53 + 1`, so it is found for its neighbour with an even mantissa. -/
theorem Literal.sameAs_neighbours :
    WritesInteger "9007199254740993" 9007199254740993 ∧
      WritesInteger "9007199254740992" 9007199254740992 ∧
      (9007199254740993 : ℤ) ≠ 9007199254740992 ∧
      (Literal.typed "9007199254740993" xsd.integer).sameAs
        (.typed "9007199254740992" xsd.integer) = true := by
  have hwrites (cs : List Char) (hne : cs ≠ []) (hcs : cs.all Char.isDigit = true) :
      WritesInteger (String.ofList cs) (Binary64.digitsValue cs) :=
    .unsigned (Binary64.writesNatural_iff.mpr ⟨hne, List.all_eq_true.mp hcs, rfl⟩)
  refine ⟨hwrites "9007199254740993".toList ?_ ?_, hwrites "9007199254740992".toList ?_ ?_,
    ?_, ?_⟩ <;> decide +kernel

end Rdf

end Ontology
