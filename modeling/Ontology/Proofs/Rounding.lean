import Mathlib.Algebra.Order.Field.Power
import Mathlib.Data.Nat.Digits.Defs
import Mathlib.Tactic.FieldSimp
import Mathlib.Tactic.Linarith
import Mathlib.Tactic.Positivity
import Ontology.Proofs.Matches

/-!
# Rounding to doubles

A double stands at a mantissa times a power of two.  The mantissas have 53 bits, unless the
exponent is the smallest one; so far from zero the doubles lie apart, and a number is rounded to the
nearest of them, one half way between two of them to that with the even mantissa.  The infinities
take part as if they stood at the next power of two: what is half a step or more above the greatest
double becomes infinite.

## Main definitions

* `Binary64.position` — where a double stands among the numbers.
* `Binary64.IsNearest` — a double is what a number is rounded to.
* `Binary64.Rounds` — a natural number is the nearest one, a tie going to the even one.

## Main results

* `Binary64.sameValue_iff_position` — doubles are equal as numbers if they stand at one place.
* `Binary64.isNearest_ofRatio` — **a quotient is rounded to the nearest double.**
* `Binary64.IsNearest.position_eq` — **a number is rounded to one place.**
* `Binary64.exists_position_eq` — integers up to `2 ^ 53` are doubles.
-/

namespace Ontology.Binary64

variable {x y : Binary64} {negative : Bool}

/-! ### Places of doubles -/

/-- The factor of a sign. -/
def sign (negative : Bool) : ℚ := if negative then -1 else 1

/-- Where a double stands among the numbers; an infinity stands where the first power of two would
that is too great. -/
def position (x : Binary64) : ℚ :=
  match x.view with
  | .nan => 0
  | .infinite negative => sign negative * 2 ^ 1024
  | .finite negative mantissa exponent => sign negative * (mantissa * 2 ^ exponent)

/-- The mantissa that the bits spell out. -/
def mantissa (x : Binary64) : ℕ :=
  if x.exponentBits = 0 then x.fractionBits else fractionCount + x.fractionBits

/-- The exponent that the bits spell out. -/
def exponent (x : Binary64) : ℤ :=
  if x.exponentBits = 0 then -1074 else x.exponentBits - 1075

theorem fractionCount_eq : fractionCount = 2 ^ 52 := rfl

theorem signBit_eq : signBit = 2048 * 2 ^ 52 := rfl

theorem sign_mul_sign_mul (negative : Bool) (p : ℚ) : sign negative * (sign negative * p) = p := by
  cases negative <;> norm_num [sign]

@[simp] theorem abs_sign (negative : Bool) : |sign negative| = 1 := by
  cases negative <;> norm_num [sign]

/-- A sign may be moved to the other number of a difference. -/
theorem abs_sub_sign_mul (negative : Bool) (p a : ℚ) :
    |p - sign negative * a| = |sign negative * p - a| := by
  have h : sign negative * p - a = sign negative * (p - sign negative * a) := by
    rw [mul_sub, sign_mul_sign_mul]
  rw [h, abs_mul, abs_sign, one_mul]

theorem fractionBits_lt (x : Binary64) : x.fractionBits < 2 ^ 52 :=
  Nat.mod_lt _ (by decide)

theorem mantissa_lt (x : Binary64) : x.mantissa < 2 ^ 53 := by
  have := x.fractionBits_lt
  rw [mantissa, fractionCount_eq]
  split <;> omega

theorem le_exponent (x : Binary64) : -1074 ≤ x.exponent := by
  rw [exponent]
  split <;> omega

/-- A mantissa has all of its bits unless the exponent is the smallest one. -/
theorem le_mantissa_or (x : Binary64) : 2 ^ 52 ≤ x.mantissa ∨ x.exponent = -1074 := by
  rw [mantissa, exponent, fractionCount_eq]
  split
  · exact .inr rfl
  · exact .inl (Nat.le_add_right _ _)

/-- The last bit of the mantissa is that of the fraction. -/
theorem even_mantissa (x : Binary64) : Even x.mantissa ↔ Even x.fractionBits := by
  rw [mantissa, fractionCount_eq]
  split
  · exact Iff.rfl
  · have heven : Even (2 ^ 52) := by decide
    rw [Nat.even_add, iff_true_left heven]

/-- The bits are those of an infinity or of a finite double. -/
theorem view_cases (hx : x.view ≠ .nan) :
    x.exponentBits = 2047 ∧ x.fractionBits = 0 ∧ x.view = .infinite x.isNegative ∨
      x.exponentBits < 2047 ∧ x.view = .finite x.isNegative x.mantissa x.exponent := by
  have hlt : x.exponentBits < 2048 := Nat.mod_lt _ (by decide)
  rw [mantissa, exponent]
  rw [view] at hx ⊢
  by_cases hinfinite : x.exponentBits = 2047
  · rw [if_pos hinfinite] at hx ⊢
    by_cases hzero : x.fractionBits = 0
    · exact .inl ⟨hinfinite, hzero, if_pos hzero⟩
    · exact absurd (if_neg hzero) hx
  · refine .inr ⟨by omega, ?_⟩
    rw [if_neg hinfinite]
    split <;> rfl

theorem two_pow_1024 : (2 : ℚ) ^ 1024 = 2 ^ 52 * 2 ^ (972 : ℤ) := by
  rw [← zpow_natCast, ← zpow_natCast, ← zpow_add₀ two_ne_zero]
  rfl

/-- A double stands where its bits spell it out, an infinity too. -/
theorem position_eq (hx : x.view ≠ .nan) :
    x.position = sign x.isNegative * (x.mantissa * 2 ^ x.exponent) := by
  rcases view_cases hx with ⟨hbits, hzero, hview⟩ | ⟨-, hview⟩
  · rw [position, hview]
    dsimp only
    rw [mantissa, exponent, hbits, hzero, two_pow_1024]
    rfl
  · rw [position, hview]

/-- No double stands beyond the infinities. -/
theorem mantissa_mul_le (hx : x.view ≠ .nan) : (x.mantissa : ℚ) * 2 ^ x.exponent ≤ 2 ^ 1024 := by
  rcases view_cases hx with ⟨hbits, hzero, -⟩ | ⟨hbits, -⟩
  · rw [mantissa, exponent, hbits, hzero, two_pow_1024]
    rfl
  · have hmantissa : (x.mantissa : ℚ) ≤ 2 ^ 52 * 2 := by
      have := x.mantissa_lt
      exact_mod_cast (by omega : x.mantissa ≤ 2 ^ 52 * 2)
    have hexponent : (2 : ℚ) ^ x.exponent ≤ 2 ^ (971 : ℤ) := by
      refine zpow_le_zpow_right₀ one_le_two ?_
      rw [exponent]
      split <;> omega
    calc (x.mantissa : ℚ) * 2 ^ x.exponent
        ≤ 2 ^ 52 * 2 * 2 ^ (971 : ℤ) :=
        mul_le_mul hmantissa hexponent (by positivity) (by positivity)
      _ = 2 ^ 1024 := by
        rw [two_pow_1024, mul_assoc, ← zpow_one_add₀ two_ne_zero]
        rfl

/-! ### One place for one value -/

/-- Where the exponent is greater, the number is greater if the mantissa has all of its bits. -/
theorem mul_zpow_lt_mul_zpow {m n : ℕ} {d e : ℤ} (hm : m < 2 ^ 53) (hn : 2 ^ 52 ≤ n) (h : d < e) :
    (m : ℚ) * 2 ^ d < n * 2 ^ e := by
  have hm' : (m : ℚ) < 2 ^ 52 * 2 := by exact_mod_cast (by omega : m < 2 ^ 52 * 2)
  have hn' : (2 : ℚ) ^ 52 ≤ n := by exact_mod_cast hn
  calc (m : ℚ) * 2 ^ d
      < 2 ^ 52 * 2 * 2 ^ d := mul_lt_mul_of_pos_right hm' (by positivity)
    _ = 2 ^ 52 * 2 ^ (1 + d) := by rw [zpow_one_add₀ two_ne_zero, mul_assoc]
    _ ≤ n * 2 ^ e :=
      mul_le_mul hn' (zpow_le_zpow_right₀ one_le_two (by omega)) (by positivity) (by positivity)

/-- The bits of a mantissa and its exponent are those of one number. -/
theorem mantissa_exponent_unique
    (h : (x.mantissa : ℚ) * 2 ^ x.exponent = y.mantissa * 2 ^ y.exponent) :
    x.mantissa = y.mantissa ∧ x.exponent = y.exponent := by
  have hle : ∀ {x y : Binary64}, (x.mantissa : ℚ) * 2 ^ x.exponent = y.mantissa * 2 ^ y.exponent →
      y.exponent ≤ x.exponent := by
    intro x y h
    by_contra hlt
    have := x.le_exponent
    have hy := y.le_mantissa_or.resolve_right (by omega)
    exact absurd h (mul_zpow_lt_mul_zpow x.mantissa_lt hy (by omega)).ne
  have hexponent : x.exponent = y.exponent := Int.le_antisymm (hle h.symm) (hle h)
  rw [hexponent] at h
  have hcancel := mul_right_cancel₀ (zpow_ne_zero _ two_ne_zero) h
  exact ⟨by exact_mod_cast hcancel, hexponent⟩

/-- A double is made up of its sign, its mantissa and its exponent. -/
theorem eq_of_mantissa_exponent (hnegative : x.isNegative = y.isNegative)
    (hmantissa : x.mantissa = y.mantissa) (hexponent : x.exponent = y.exponent) : x = y := by
  have hx := x.fractionBits_lt
  have hy := y.fractionBits_lt
  have hbits : x.exponentBits = y.exponentBits ∧ x.fractionBits = y.fractionBits := by
    rw [mantissa, mantissa, fractionCount_eq] at hmantissa
    rw [exponent, exponent] at hexponent
    split at hmantissa <;> split at hmantissa <;> omega
  obtain ⟨hexponent, hfraction⟩ := hbits
  have hxlt := x.bits.toNat_lt
  have hylt := y.bits.toNat_lt
  rw [isNegative, isNegative, decide_eq_decide, signBit_eq] at hnegative
  rw [exponentBits, exponentBits, fractionCount_eq] at hexponent
  rw [fractionBits, fractionBits, fractionCount_eq] at hfraction
  have : x.bits.toNat = y.bits.toNat := by omega
  cases x
  cases y
  exact congrArg Binary64.mk (UInt64.toNat_inj.mp this)

/-- A double stands at zero if and only if it is zero. -/
theorem position_eq_zero_iff (hx : x.view ≠ .nan) : x.position = 0 ↔ x.IsZero := by
  have hpower : (2 : ℚ) ^ x.exponent ≠ 0 := zpow_ne_zero _ two_ne_zero
  have hsign : sign x.isNegative ≠ 0 := fun h => by simpa [h] using abs_sign x.isNegative
  rcases view_cases hx with ⟨-, -, hview⟩ | ⟨-, hview⟩
  · refine iff_of_false ?_ ?_
    · rw [position, hview]
      exact mul_ne_zero hsign (pow_ne_zero _ two_ne_zero)
    · rintro ⟨_, _, h⟩
      rw [hview] at h
      cases h
  · rw [position_eq hx, mul_eq_zero, or_iff_right hsign, mul_eq_zero, or_iff_left hpower,
      Nat.cast_eq_zero, IsZero, hview]
    simp

/-- **Doubles are equal as numbers if and only if they stand at one place.** -/
theorem sameValue_iff_position (hx : x.view ≠ .nan) (hy : y.view ≠ .nan) :
    x.sameValue y = true ↔ x.position = y.position := by
  rw [sameValue_iff, and_iff_right hx, and_iff_right hy]
  constructor
  · rintro (rfl | ⟨hzero, hzero'⟩)
    · rfl
    · rw [(position_eq_zero_iff hx).mpr hzero, (position_eq_zero_iff hy).mpr hzero']
  · intro h
    by_cases hzero : x.position = 0
    · exact .inr ⟨(position_eq_zero_iff hx).mp hzero, (position_eq_zero_iff hy).mp (h ▸ hzero)⟩
    · left
      have hplaces := h
      rw [position_eq hx, position_eq hy] at hplaces
      rw [position_eq hx] at hzero
      have habs := congrArg abs hplaces
      have hx' : (0 : ℚ) ≤ x.mantissa * 2 ^ x.exponent := by positivity
      have hy' : (0 : ℚ) ≤ y.mantissa * 2 ^ y.exponent := by positivity
      rw [abs_mul, abs_mul (sign _), abs_sign, abs_sign, one_mul, one_mul, abs_of_nonneg hx',
        abs_of_nonneg hy'] at habs
      obtain ⟨hmantissa, hexponent⟩ := mantissa_exponent_unique habs
      refine eq_of_mantissa_exponent ?_ hmantissa hexponent
      rw [← habs] at hplaces
      have hsign := mul_right_cancel₀ (right_ne_zero_of_mul hzero) hplaces
      revert hsign
      cases x.isNegative <;> cases y.isNegative <;> norm_num [sign]

/-! ### Bits of a sign and an absolute value -/

theorem toNat_ofMagnitude {k : ℕ} (hk : k ≤ 2047 * 2 ^ 52) :
    (ofMagnitude negative k).bits.toNat = k + if negative then signBit else 0 := by
  rw [ofMagnitude, UInt64.toNat_ofNat']
  refine Nat.mod_eq_of_lt ?_
  rw [signBit_eq]
  split <;> omega

theorem exponentBits_ofMagnitude {k : ℕ} (hk : k ≤ 2047 * 2 ^ 52) :
    (ofMagnitude negative k).exponentBits = k / 2 ^ 52 := by
  rw [exponentBits, toNat_ofMagnitude hk, signBit_eq, fractionCount_eq]
  split <;> omega

theorem fractionBits_ofMagnitude {k : ℕ} (hk : k ≤ 2047 * 2 ^ 52) :
    (ofMagnitude negative k).fractionBits = k % 2 ^ 52 := by
  rw [fractionBits, toNat_ofMagnitude hk, signBit_eq, fractionCount_eq]
  split <;> omega

theorem isNegative_ofMagnitude {k : ℕ} (hk : k ≤ 2047 * 2 ^ 52) :
    (ofMagnitude negative k).isNegative = negative := by
  rw [isNegative, toNat_ofMagnitude hk, signBit_eq]
  cases negative
  · simp only [Bool.false_eq_true, if_false, decide_eq_false_iff_not]
    omega
  · simp only [if_true, decide_eq_true_eq]
    omega

theorem view_ofMagnitude_ne_nan {k : ℕ} (hk : k ≤ 2047 * 2 ^ 52) :
    (ofMagnitude negative k).view ≠ .nan := by
  rw [view, exponentBits_ofMagnitude hk, fractionBits_ofMagnitude hk]
  split
  · next hbits =>
    rw [if_pos (by omega)]
    exact View.noConfusion
  · split <;> exact View.noConfusion

/-- A mantissa is put behind its exponent; one bit too many moves on to the exponent. -/
theorem position_ofMagnitude (negative : Bool) {c r : ℕ} (hr : r ≤ 2 ^ 53)
    (hfull : 2 ^ 52 ≤ r ∨ c = 0) (hk : c * 2 ^ 52 + r ≤ 2047 * 2 ^ 52) :
    (ofMagnitude negative (c * 2 ^ 52 + r)).position =
      sign negative * (r * 2 ^ ((c : ℤ) - 1074)) := by
  rw [position_eq (view_ofMagnitude_ne_nan hk), isNegative_ofMagnitude hk, mantissa, exponent,
    exponentBits_ofMagnitude hk, fractionBits_ofMagnitude hk, fractionCount_eq]
  congr 1
  rcases Nat.lt_or_ge r (2 ^ 52) with hlow | hhigh
  · obtain rfl : c = 0 := hfull.resolve_left (by omega)
    rw [if_pos (by omega), if_pos (by omega), show (0 * 2 ^ 52 + r) % 2 ^ 52 = r by omega]
    rfl
  rw [if_neg (by omega), if_neg (by omega)]
  rcases Nat.lt_or_eq_of_le hr with hlt | rfl
  · rw [show 2 ^ 52 + (c * 2 ^ 52 + r) % 2 ^ 52 = r by omega,
      show (((c * 2 ^ 52 + r) / 2 ^ 52 : ℕ) : ℤ) - 1075 = c - 1074 by omega]
  · rw [show 2 ^ 52 + (c * 2 ^ 52 + 2 ^ 53) % 2 ^ 52 = 2 ^ 52 by omega,
      show (((c * 2 ^ 52 + 2 ^ 53) / 2 ^ 52 : ℕ) : ℤ) - 1075 = 1 + (c - 1074) by omega,
      zpow_one_add₀ two_ne_zero, ← mul_assoc]
    norm_num

theorem even_fractionBits_ofMagnitude {c r : ℕ} (hk : c * 2 ^ 52 + r ≤ 2047 * 2 ^ 52) :
    Even (ofMagnitude negative (c * 2 ^ 52 + r)).fractionBits ↔ Even r := by
  rw [fractionBits_ofMagnitude hk, Nat.even_iff, Nat.even_iff]
  omega

/-! ### Nearest natural numbers -/

/-- A natural number is the nearest one, a tie going to the even one. -/
def Rounds (a : ℚ) (r : ℕ) : Prop :=
  |(r : ℚ) - a| < 1 / 2 ∨ |(r : ℚ) - a| = 1 / 2 ∧ Even r

theorem rounds_roundQuotient (num : ℕ) {den : ℕ} (hden : 0 < den) :
    Rounds (num / den) (roundQuotient num den) := by
  have hpos : (0 : ℚ) < den := by exact_mod_cast hden
  have hnum : (num : ℚ) / den = (num / den : ℕ) + (num % den : ℕ) / den := by
    rw [eq_comm, ← mul_left_inj' hpos.ne', add_mul, div_mul_cancel₀ _ hpos.ne',
      div_mul_cancel₀ _ hpos.ne']
    exact_mod_cast Nat.div_add_mod' num den
  have hnonneg : (0 : ℚ) ≤ (num % den : ℕ) / den := by positivity
  rw [Rounds, hnum, roundQuotient]
  split
  · next hlow =>
    left
    have : ((num % den : ℕ) : ℚ) / den < 1 / 2 := by
      rw [div_lt_iff₀ hpos]
      have : (2 : ℚ) * (num % den : ℕ) < den := by exact_mod_cast hlow
      linarith
    rw [abs_lt]
    constructor <;> linarith
  split
  · next hhigh =>
    left
    have hmod : ((num % den : ℕ) : ℚ) / den < 1 := by
      rw [div_lt_one hpos]
      exact_mod_cast Nat.mod_lt num hden
    have : (1 : ℚ) / 2 < (num % den : ℕ) / den := by
      rw [lt_div_iff₀ hpos]
      have : (den : ℚ) < 2 * (num % den : ℕ) := by exact_mod_cast hhigh
      linarith
    push_cast
    rw [abs_lt]
    constructor <;> linarith
  · next hlow hhigh =>
    right
    have hhalf : ((num % den : ℕ) : ℚ) / den = 1 / 2 := by
      rw [div_eq_iff hpos.ne']
      have : (2 : ℚ) * (num % den : ℕ) = den := by exact_mod_cast (by omega : 2 * (num % den) = den)
      linarith
    rw [hhalf, Nat.even_iff]
    refine ⟨?_, by omega⟩
    rcases Nat.mod_two_eq_zero_or_one (num / den) with heven | hodd
    · rw [heven]
      norm_num
    · rw [hodd]
      push_cast
      rw [add_sub_add_left_eq_sub]
      norm_num

/-- No other integer is as near, unless it is odd. -/
theorem Rounds.nearest {a : ℚ} {r : ℕ} (h : Rounds a r) (j : ℤ) :
    j = r ∨ |(r : ℚ) - a| < |(j : ℚ) - a| ∨
      |(r : ℚ) - a| = |(j : ℚ) - a| ∧ Even r ∧ Odd j := by
  by_cases hj : j = r
  · exact .inl hj
  right
  have htriangle : |(j : ℚ) - r| ≤ |(j : ℚ) - a| + |(r : ℚ) - a| := by
    rw [abs_sub_comm (r : ℚ) a]
    exact abs_sub_le _ _ _
  have hone : (1 : ℚ) ≤ |(j : ℚ) - r| := by
    have : 1 ≤ |j - r| := Int.one_le_abs (sub_ne_zero.mpr hj)
    exact_mod_cast this
  rcases h with h | ⟨h, heven⟩
  · left
    linarith
  rcases Int.even_or_odd j with hjeven | hjodd
  · left
    have htwo : (2 : ℚ) ≤ |(j : ℚ) - r| := by
      have : 2 ≤ |j - r| := by
        rw [Int.even_iff] at hjeven
        rw [Nat.even_iff] at heven
        rw [le_abs]
        omega
      exact_mod_cast this
    linarith
  · rcases lt_or_eq_of_le (by linarith : |(r : ℚ) - a| ≤ |(j : ℚ) - a|) with hlt | heq
    · exact .inl hlt
    · exact .inr ⟨heq, heven, hjodd⟩

theorem Rounds.le {a : ℚ} {r n : ℕ} (h : Rounds a r) (ha : a < n) : r ≤ n := by
  by_contra hlt
  have : (n : ℚ) + 1 ≤ r := by exact_mod_cast Nat.lt_of_not_le hlt
  have habs := le_abs_self ((r : ℚ) - a)
  rcases h with h | ⟨h, -⟩ <;> linarith

theorem Rounds.ge {a : ℚ} {r n : ℕ} (h : Rounds a r) (ha : n ≤ a) : n ≤ r := by
  by_contra hlt
  have : (r : ℚ) + 1 ≤ n := by exact_mod_cast Nat.lt_of_not_le hlt
  have habs := neg_abs_le ((r : ℚ) - a)
  rcases h with h | ⟨h, -⟩ <;> linarith

/-! ### The exponent at which a quotient is rounded -/

theorem scaledRatio_pos (num : ℕ) {den : ℕ} (hden : 0 < den) (e : ℤ) :
    0 < (scaledRatio num den e).2 := by
  rw [scaledRatio]
  split
  · exact hden
  · exact Nat.mul_pos hden (Nat.two_pow_pos _)

theorem scaledRatio_eq (num : ℕ) {den : ℕ} (e : ℤ) :
    ((scaledRatio num den e).1 : ℚ) / (scaledRatio num den e).2 = num / den / 2 ^ e := by
  rw [scaledRatio]
  split
  · next hneg =>
    obtain ⟨k, hk⟩ := Int.eq_ofNat_of_zero_le (a := -e) (by omega)
    obtain rfl : e = -k := by omega
    simp [div_mul_eq_mul_div]
  · next hpos =>
    obtain ⟨k, rfl⟩ := Int.eq_ofNat_of_zero_le (Int.not_lt.mp hpos)
    simp [div_div]

/-- At the exponent that is estimated from the numbers of bits a quotient has 52 or 53 bits. -/
theorem bounds_estimate {num den : ℕ} (hnum : num ≠ 0) (hden : 0 < den) :
    (2 : ℚ) ^ 51 * 2 ^ ((num.log2 : ℤ) - den.log2 - 52) ≤ num / den ∧
      (num : ℚ) / den < 2 ^ 53 * 2 ^ ((num.log2 : ℤ) - den.log2 - 52) := by
  have hpos : (0 : ℚ) < den := by exact_mod_cast hden
  have hnumLow : (2 : ℚ) ^ num.log2 ≤ num := by exact_mod_cast Nat.log2_self_le hnum
  have hnumHigh : (num : ℚ) < 2 ^ (num.log2 + 1) := by exact_mod_cast Nat.lt_log2_self
  have hdenLow : (2 : ℚ) ^ den.log2 ≤ den := by exact_mod_cast Nat.log2_self_le hden.ne'
  have hdenHigh : (den : ℚ) < 2 ^ (den.log2 + 1) := by exact_mod_cast Nat.lt_log2_self
  have hpower : (2 : ℚ) ^ ((num.log2 : ℤ) - den.log2 - 52) * 2 ^ den.log2 * 2 ^ 52 =
      2 ^ num.log2 := by
    rw [zpow_sub₀ two_ne_zero, zpow_sub₀ two_ne_zero, zpow_natCast, zpow_natCast]
    field_simp
  have hscale : (0 : ℚ) < 2 ^ ((num.log2 : ℤ) - den.log2 - 52) := by positivity
  generalize (2 : ℚ) ^ ((num.log2 : ℤ) - den.log2 - 52) = scale at hpower hscale ⊢
  rw [pow_succ] at hnumHigh hdenHigh
  constructor
  · rw [le_div_iff₀ hpos]
    have := mul_le_mul_of_nonneg_left hdenHigh.le hscale.le
    linarith
  · rw [div_lt_iff₀ hpos]
    have := mul_le_mul_of_nonneg_left hdenLow hscale.le
    linarith

/-- A quotient is rounded where it has 53 bits, or at the smallest exponent. -/
theorem bounds_roundingExponent {num den : ℕ} (hnum : num ≠ 0) (hden : 0 < den) :
    -1074 ≤ roundingExponent num den ∧
      (num : ℚ) / den < 2 ^ 53 * 2 ^ roundingExponent num den ∧
      ((2 : ℚ) ^ 52 * 2 ^ roundingExponent num den ≤ num / den ∨
        roundingExponent num den = -1074) := by
  obtain ⟨hlow, hhigh⟩ := bounds_estimate hnum hden
  rw [roundingExponent]
  generalize (num.log2 : ℤ) - den.log2 - 52 = e at *
  have htest : (scaledRatio num den e).1 / (scaledRatio num den e).2 < fractionCount ↔
      (num : ℚ) / den < 2 ^ 52 * 2 ^ e := by
    have hpos := scaledRatio_pos num hden e
    have hpos' : (0 : ℚ) < (scaledRatio num den e).2 := by exact_mod_cast hpos
    rw [Nat.div_lt_iff_lt_mul hpos, fractionCount_eq, ← div_lt_iff₀ (by positivity),
      ← scaledRatio_eq, div_lt_iff₀ hpos']
    exact_mod_cast Iff.rfl
  simp only [htest]
  -- the exponent that leaves 53 bits
  obtain ⟨e', he', hlow', hhigh'⟩ : ∃ e' : ℤ,
      (if (num : ℚ) / den < 2 ^ 52 * 2 ^ e then e - 1 else e) = e' ∧
      (2 : ℚ) ^ 52 * 2 ^ e' ≤ num / den ∧ (num : ℚ) / den < 2 ^ 53 * 2 ^ e' := by
    refine ⟨_, rfl, ?_⟩
    split
    · next hfew =>
      have hhalf : (2 : ℚ) ^ e = 2 ^ (e - 1) * 2 := by
        rw [← zpow_add_one₀ two_ne_zero, sub_add_cancel]
      rw [hhalf] at hfew hlow
      constructor <;> linarith
    · next hmany => exact ⟨not_lt.mp hmany, hhigh⟩
  rw [he']
  refine ⟨le_max_right _ _, ?_, ?_⟩
  · refine lt_of_lt_of_le hhigh' (mul_le_mul_of_nonneg_left ?_ (by positivity))
    exact zpow_le_zpow_right₀ one_le_two (le_max_left _ _)
  · rcases le_total (-1074) e' with hle | hle
    · left
      rwa [max_eq_left hle]
    · exact .inr (max_eq_right hle)

/-! ### Nearest doubles -/

/-- A double is what a number is rounded to: none is nearer, and if another one is as near the
mantissa is even. -/
structure IsNearest (x : Binary64) (q : ℚ) : Prop where
  isNumber : x.view ≠ .nan
  nearest : ∀ y : Binary64, y.view ≠ .nan → |x.position - q| ≤ |y.position - q|
  even : ∀ y : Binary64, y.view ≠ .nan → |y.position - q| = |x.position - q| →
    y.position ≠ x.position → Even x.fractionBits

/-- A double is preferred to another one when a number is rounded. -/
def Precedes (q : ℚ) (x y : Binary64) : Prop :=
  |x.position - q| < |y.position - q| ∨
    |x.position - q| = |y.position - q| ∧ Even x.fractionBits ∧ ¬Even y.fractionBits

theorem IsNearest.of_precedes {q : ℚ} (hx : x.view ≠ .nan)
    (h : ∀ y : Binary64, y.view ≠ .nan → y.position = x.position ∨ Precedes q x y) :
    x.IsNearest q where
  isNumber := hx
  nearest y hy := by
    rcases h y hy with hplace | hlt | ⟨heq, -⟩
    · rw [hplace]
    · exact hlt.le
    · exact heq.le
  even y hy heq hne := by
    rcases h y hy with hplace | hlt | ⟨-, heven, -⟩
    · exact absurd hplace hne
    · exact absurd heq hlt.ne'
    · exact heven

/-- Both zeros are nearest where one of them is. -/
theorem IsNearest.congr {q : ℚ} (hx : x.IsNearest q) (hsame : x.sameValue y = true) :
    y.IsNearest q := by
  obtain ⟨-, hy, h⟩ := sameValue_iff.mp hsame
  rcases h with rfl | ⟨-, _, _, hzero⟩
  · exact hx
  have hplace := (sameValue_iff_position hx.isNumber hy).mp hsame
  refine ⟨hy, hplace ▸ hx.nearest, fun _ _ _ _ => ?_⟩
  rcases view_cases hy with ⟨-, -, hview⟩ | ⟨-, hview⟩ <;> rw [hview] at hzero
  · cases hzero
  · rw [← even_mantissa, (View.finite.inj hzero).2.1]
    exact Even.zero

theorem cast_le_natAbs (j : ℤ) : (j : ℚ) ≤ j.natAbs := by
  rw [Nat.cast_natAbs]
  exact_mod_cast le_abs_self j

/-- An integer times a power of two is preferred if the integer is the nearest one, unless the
other number has fewer bits than it needs to be as near. -/
theorem mul_zpow_nearest {a : ℚ} {r : ℕ} {d e j : ℤ} (hr : Rounds (a / 2 ^ d) r)
    (hfull : 2 ^ 52 * 2 ^ d ≤ a ∨ d ≤ e) (hj : j.natAbs < 2 ^ 53) :
    (j : ℚ) * 2 ^ e = r * 2 ^ d ∨ |(r : ℚ) * 2 ^ d - a| < |(j : ℚ) * 2 ^ e - a| ∨
      |(r : ℚ) * 2 ^ d - a| = |(j : ℚ) * 2 ^ e - a| ∧ Even r ∧ Odd j := by
  have hpos : (0 : ℚ) < 2 ^ d := by positivity
  have hscale (s : ℚ) : |s * 2 ^ d - a| = |s - a / 2 ^ d| * 2 ^ d := by
    rw [← abs_of_pos hpos, ← abs_mul, abs_of_pos hpos, sub_mul, div_mul_cancel₀ _ hpos.ne']
  rcases le_or_gt d e with hle | hlt
  · -- the other number is a multiple of the same power
    obtain ⟨k, rfl⟩ := Int.le.dest hle
    have hmultiple : (j : ℚ) * 2 ^ (d + k) = ((j * 2 ^ k : ℤ) : ℚ) * 2 ^ d := by
      rw [zpow_add₀ two_ne_zero, zpow_natCast]
      push_cast
      ring
    rw [hmultiple, hscale, hscale]
    rcases hr.nearest (j * 2 ^ k) with heq | hlt | ⟨heq, heven, hodd⟩
    · left
      rw [heq]
      rfl
    · exact .inr (.inl (mul_lt_mul_of_pos_right hlt hpos))
    · exact .inr (.inr ⟨by rw [heq], heven, (Int.odd_mul.mp hodd).1⟩)
  · -- the other number does not reach the power of two below `a`
    right
    left
    have hlow := hfull.resolve_right (by omega)
    have hbelow : (j : ℚ) * 2 ^ e < 2 ^ 52 * 2 ^ d := by
      have hlarge := mul_zpow_lt_mul_zpow hj le_rfl hlt
      rw [Nat.cast_pow, Nat.cast_ofNat] at hlarge
      exact lt_of_le_of_lt (mul_le_mul_of_nonneg_right (cast_le_natAbs j) (by positivity)) hlarge
    have hgrid : |(r : ℚ) * 2 ^ d - a| ≤ |(2 ^ 52 : ℚ) * 2 ^ d - a| := by
      rw [hscale, hscale]
      refine mul_le_mul_of_nonneg_right ?_ hpos.le
      rcases hr.nearest (2 ^ 52) with heq | hlt | ⟨heq, -⟩
      · rw [show (r : ℚ) = 2 ^ 52 by exact_mod_cast heq.symm]
      · exact_mod_cast hlt.le
      · exact_mod_cast heq.le
    rw [abs_of_nonpos (a := (2 ^ 52 : ℚ) * 2 ^ d - a) (by linarith)] at hgrid
    rw [abs_of_nonpos (a := (j : ℚ) * 2 ^ e - a) (by linarith)]
    linarith

/-- A double stands, up to a sign, at an integer times a power of two. -/
theorem exists_sign_mul_position (negative : Bool) (hy : y.view ≠ .nan) :
    ∃ j : ℤ, sign negative * y.position = j * 2 ^ y.exponent ∧ j.natAbs = y.mantissa := by
  rw [position_eq hy]
  cases negative <;> cases y.isNegative
  · exact ⟨y.mantissa, by simp [sign], by simp⟩
  · exact ⟨-y.mantissa, by simp [sign], by simp⟩
  · exact ⟨-y.mantissa, by simp [sign], by simp⟩
  · exact ⟨y.mantissa, by simp [sign], by simp⟩

theorem position_infinity (negative : Bool) :
    (infinity negative).position = sign negative * 2 ^ 1024 := by
  have h := position_ofMagnitude negative (c := 2046) (r := 2 ^ 52) (by omega)
    (.inl le_rfl) le_rfl
  rw [two_pow_1024]
  exact h

/-- What is beyond all doubles is rounded to an infinity. -/
theorem infinity_precedes {a : ℚ} (ha : 2 ^ 1024 ≤ a) (hy : y.view ≠ .nan) :
    y.position = (infinity negative).position ∨
      Precedes (sign negative * a) (infinity negative) y := by
  obtain ⟨j, hj, hmantissa⟩ := exists_sign_mul_position negative hy
  have hle : sign negative * y.position ≤ 2 ^ 1024 := by
    refine le_trans ?_ (mantissa_mul_le hy)
    rw [hj, ← hmantissa]
    exact mul_le_mul_of_nonneg_right (cast_le_natAbs j) (by positivity)
  rw [Precedes, abs_sub_sign_mul, abs_sub_sign_mul, position_infinity, sign_mul_sign_mul]
  rcases hle.lt_or_eq with hlt | heq
  · right
    left
    rw [abs_of_nonpos (sub_nonpos.mpr ha), abs_of_nonpos (sub_nonpos.mpr (hle.trans ha))]
    exact neg_lt_neg (sub_lt_sub_right hlt a)
  · left
    rw [← heq, sign_mul_sign_mul]

theorem position_zero (negative : Bool) : (zero negative).position = 0 := by
  have h := position_ofMagnitude negative (c := 0) (r := 0) (by omega) (.inr rfl) (by omega)
  rw [zero]
  simpa using h

theorem zero_precedes (negative : Bool) (y : Binary64) :
    y.position = (zero negative).position ∨ Precedes 0 (zero negative) y := by
  rw [Precedes, position_zero, sub_zero, sub_zero, abs_zero]
  exact (eq_or_ne y.position 0).imp_right fun h => .inl (abs_pos.mpr h)

/-- What is rounded to a mantissa at an exponent is rounded to the double of the two, if the
mantissa has all of its bits or the exponent is the smallest one. -/
theorem ofMagnitude_precedes {a : ℚ} {c r : ℕ} (hrounds : Rounds (a / 2 ^ ((c : ℤ) - 1074)) r)
    (hfull : 2 ^ 52 * 2 ^ ((c : ℤ) - 1074) ≤ a ∧ 2 ^ 52 ≤ r ∨ c = 0) (hr : r ≤ 2 ^ 53)
    (hk : c * 2 ^ 52 + r ≤ 2047 * 2 ^ 52) (hy : y.view ≠ .nan) :
    y.position = (ofMagnitude negative (c * 2 ^ 52 + r)).position ∨
      Precedes (sign negative * a) (ofMagnitude negative (c * 2 ^ 52 + r)) y := by
  obtain ⟨j, hj, hmantissa⟩ := exists_sign_mul_position negative hy
  have hplace : sign negative * (ofMagnitude negative (c * 2 ^ 52 + r)).position =
      r * 2 ^ ((c : ℤ) - 1074) := by
    rw [position_ofMagnitude negative hr (hfull.imp_left And.right) hk, sign_mul_sign_mul]
  rw [Precedes, abs_sub_sign_mul, abs_sub_sign_mul, hplace, hj]
  have hlow : 2 ^ 52 * 2 ^ ((c : ℤ) - 1074) ≤ a ∨ (c : ℤ) - 1074 ≤ y.exponent := by
    refine hfull.imp And.left fun hc => le_of_eq_of_le ?_ y.le_exponent
    rw [hc]
    rfl
  have hj53 : j.natAbs < 2 ^ 53 := hmantissa ▸ y.mantissa_lt
  rcases mul_zpow_nearest hrounds hlow hj53 with heq | hlt | ⟨heq, heven, hodd⟩
  · left
    rw [← sign_mul_sign_mul negative y.position, hj, heq, ← hplace, sign_mul_sign_mul]
  · exact .inr (.inl hlt)
  · refine .inr (.inr ⟨heq, (even_fractionBits_ofMagnitude hk).mpr heven, fun hy => ?_⟩)
    rw [← even_mantissa, ← hmantissa, Int.natAbs_even] at hy
    exact Int.not_even_iff_odd.mpr hodd hy

/-- The double of a quotient is a number, and preferred to all that stand at other places. -/
theorem ofRatio_precedes (negative : Bool) (num : ℕ) {den : ℕ} (hden : 0 < den) :
    (ofRatio negative num den).view ≠ .nan ∧ ∀ y : Binary64, y.view ≠ .nan →
      y.position = (ofRatio negative num den).position ∨
        Precedes (sign negative * (num / den)) (ofRatio negative num den) y := by
  rw [ofRatio]
  by_cases hnum : num = 0
  · rw [if_pos hnum, hnum, Nat.cast_zero, zero_div, mul_zero]
    exact ⟨view_ofMagnitude_ne_nan (by omega), fun y _ => zero_precedes negative y⟩
  rw [if_neg hnum]
  obtain ⟨hexponent, hhigh, hfull⟩ := bounds_roundingExponent hnum hden
  have hrounds := rounds_roundQuotient (scaledRatio num den (roundingExponent num den)).1
    (scaledRatio_pos num hden (roundingExponent num den))
  rw [scaledRatio_eq] at hrounds
  dsimp only
  generalize roundingExponent num den = e at *
  generalize roundQuotient (scaledRatio num den e).1 (scaledRatio num den e).2 = r at *
  generalize (num : ℚ) / den = a at *
  have hpos : (0 : ℚ) < 2 ^ e := by positivity
  have hle : r ≤ 2 ^ 53 := by
    refine hrounds.le ?_
    rw [div_lt_iff₀ hpos]
    exact_mod_cast hhigh
  have hge (h : (2 : ℚ) ^ 52 * 2 ^ e ≤ a) : 2 ^ 52 ≤ r := by
    refine hrounds.ge ?_
    rw [le_div_iff₀ hpos]
    exact_mod_cast h
  obtain ⟨c, hc⟩ := Int.eq_ofNat_of_zero_le (a := e + 1074) (by omega)
  obtain rfl : e = c - 1074 := by omega
  rw [sub_add_cancel, Int.toNat_natCast, fractionCount_eq]
  rcases Nat.lt_or_ge 2045 c with hlarge | hsmall
  · -- the exponent is that of an infinity at least
    have ha := hfull.resolve_right (by omega)
    have := hge ha
    rw [min_eq_right (by omega)]
    refine ⟨view_ofMagnitude_ne_nan le_rfl, fun y hy => infinity_precedes (le_trans ?_ ha) hy⟩
    rw [two_pow_1024]
    refine mul_le_mul_of_nonneg_left ?_ (by positivity)
    exact zpow_le_zpow_right₀ one_le_two (by omega)
  · have hk : c * 2 ^ 52 + r ≤ 2047 * 2 ^ 52 := by omega
    have hfull' := hfull.imp (fun h => And.intro h (hge h)) fun h => (by omega : c = 0)
    rw [min_eq_left hk]
    exact ⟨view_ofMagnitude_ne_nan hk, fun y hy => ofMagnitude_precedes hrounds hfull' hle hk hy⟩

/-- **A quotient is rounded to the nearest double.** -/
theorem isNearest_ofRatio (negative : Bool) (num : ℕ) {den : ℕ} (hden : 0 < den) :
    (ofRatio negative num den).IsNearest (sign negative * (num / den)) :=
  have ⟨hnumber, hprecedes⟩ := ofRatio_precedes negative num hden
  .of_precedes hnumber hprecedes

/-- **A number is rounded to one place.** -/
theorem IsNearest.position_eq {q : ℚ} (hx : x.IsNearest q) (hy : y.IsNearest q) :
    x.position = y.position := by
  have hq : sign (decide (q < 0)) * (q.num.natAbs / q.den) = q := by
    have habs : (q.num.natAbs : ℚ) / q.den = |q| := by
      rw [Nat.cast_natAbs, Int.cast_abs, ← Nat.abs_cast q.den, ← abs_div, Rat.num_div_den]
    rw [habs, sign]
    by_cases hneg : q < 0
    · rw [decide_eq_true hneg, if_pos rfl, abs_of_neg hneg, neg_one_mul, neg_neg]
    · rw [decide_eq_false hneg, if_neg Bool.false_ne_true, abs_of_nonneg (not_lt.mp hneg), one_mul]
  obtain ⟨hnumber, hprecedes⟩ := ofRatio_precedes (decide (q < 0)) q.num.natAbs q.den_pos
  rw [hq] at hprecedes
  have hunique : ∀ {x : Binary64}, x.IsNearest q →
      x.position = (ofRatio (decide (q < 0)) q.num.natAbs q.den).position := by
    intro x hx
    by_contra hne
    rcases (hprecedes x hx.isNumber).resolve_left hne with hlt | ⟨heq, -, hodd⟩
    · exact absurd (hx.nearest _ hnumber) (not_le.mpr hlt)
    · exact hodd (hx.even _ hnumber heq (Ne.symm hne))
  rw [hunique hx, hunique hy]

/-! ### Integers -/

/-- Integers of 53 bits are doubles. -/
theorem exists_position_eq {k : ℤ} (hk : k.natAbs ≤ 2 ^ 53) :
    ∃ x : Binary64, x.view ≠ .nan ∧ x.position = k := by
  have hsigned : sign (decide (k < 0)) * (k.natAbs : ℚ) = k := by
    rw [Nat.cast_natAbs, sign]
    by_cases hneg : k < 0
    · rw [decide_eq_true hneg, if_pos rfl, abs_of_neg hneg]
      push_cast
      ring
    · rw [decide_eq_false hneg, if_neg Bool.false_ne_true, abs_of_nonneg (not_lt.mp hneg), one_mul]
  generalize k.natAbs = n at hk hsigned
  -- the bits of the integer are moved to the front of the mantissa
  obtain ⟨shift, r, hr, hshift, hlow, hhigh⟩ : ∃ shift r : ℕ, r = n * 2 ^ shift ∧ shift ≤ 1074 ∧
      (2 ^ 52 ≤ r ∨ shift = 1074) ∧ r ≤ 2 ^ 53 := by
    by_cases hzero : n = 0
    · exact ⟨1074, 0, by rw [hzero, Nat.zero_mul], le_rfl, .inr rfl, by omega⟩
    by_cases hfull : n = 2 ^ 53
    · exact ⟨0, n, by rw [pow_zero, Nat.mul_one], by omega, .inl (by omega), hk⟩
    have hlog : n.log2 < 53 := (Nat.log2_lt hzero).mpr (by omega)
    have hsplit : 2 ^ n.log2 * 2 ^ (52 - n.log2) = 2 ^ 52 := by
      rw [← pow_add]
      congr 1
      omega
    refine ⟨52 - n.log2, _, rfl, by omega, .inl ?_, ?_⟩
    · rw [← hsplit]
      exact Nat.mul_le_mul_right _ (Nat.log2_self_le hzero)
    · have := Nat.mul_le_mul_right (2 ^ (52 - n.log2)) (Nat.lt_log2_self (n := n)).le
      rw [pow_succ, Nat.mul_right_comm, hsplit] at this
      exact this
  refine ⟨ofMagnitude (decide (k < 0)) ((1074 - shift) * 2 ^ 52 + r),
    view_ofMagnitude_ne_nan (by omega), ?_⟩
  rw [position_ofMagnitude _ hhigh (hlow.imp_right (by omega)) (by omega), ← hsigned, hr]
  congr 1
  rw [show ((1074 - shift : ℕ) : ℤ) - 1074 = -shift by omega, zpow_neg, zpow_natCast]
  push_cast
  exact mul_inv_cancel_right₀ (pow_ne_zero _ two_ne_zero) _

/-- Integers below `2 ^ 53` are not rounded, and no other integer is rounded to one of them. -/
theorem IsNearest.eq_of_natAbs_lt {m n : ℤ} (hm : m.natAbs < 2 ^ 53) (h : x.IsNearest m)
    (h' : x.IsNearest n) : m = n := by
  have hplace : x.position = m := by
    obtain ⟨z, hz, hzm⟩ := exists_position_eq hm.le
    have hle := h.nearest z hz
    rw [hzm, sub_self, abs_zero] at hle
    exact sub_eq_zero.mp (abs_nonpos_iff.mp hle)
  by_contra hne
  -- the neighbour of `m` on the side of `n` is nearer to `n`
  obtain ⟨k, hk, hlt⟩ : ∃ k : ℤ, k.natAbs ≤ 2 ^ 53 ∧ |k - n| < |m - n| := by
    rcases lt_or_gt_of_ne hne with hlt | hgt
    · refine ⟨m + 1, by omega, ?_⟩
      rw [abs_of_nonpos (by omega), abs_of_nonpos (by omega)]
      omega
    · refine ⟨m - 1, by omega, ?_⟩
      rw [abs_of_nonneg (by omega), abs_of_nonneg (by omega)]
      omega
  obtain ⟨z, hz, hzk⟩ := exists_position_eq hk
  have hle := h'.nearest z hz
  rw [hplace, hzk] at hle
  exact absurd hlt (not_lt.mpr (by exact_mod_cast hle))

end Ontology.Binary64
