import Mathlib.Data.Nat.Digits.Defs
import ParseKit.Binary64.Numeral
import ParseKit.Proofs.Rounding

/-! What numerals denote: the sum of the digits by their places. Main statement: the number that a
numeral is rounded to is finite unless the sum is too large, and is then the one number that is
nearest to the sum and has its sign. -/
namespace ParseKit

namespace Text

def digitOf (c : Char) : Nat := c.toNat - '0'.toNat

theorem digitsFromStart (start : Nat) (digits : Text) :
    digitsFrom start digits = start * 10 ^ digits.length + toNat digits := by
  unfold toNat
  induction digits generalizing start with
  | nil => simp [digitsFrom]
  | cons c digits ih =>
    change digitsFrom (start * 10 + digitOf c) digits = _ + digitsFrom (0 * 10 + digitOf c) digits
    rw [ih, ih (0 * 10 + _), List.length_cons, pow_succ]
    ring

theorem toNatPositional (digits : Text) :
    toNat digits = Nat.ofDigits 10 (digits.reverse.map digitOf) := by
  induction digits with
  | nil => rfl
  | cons c digits ih =>
    change digitsFrom (0 * 10 + digitOf c) digits = _
    rw [digitsFromStart, ih, List.reverse_cons, List.map_append, Nat.ofDigits_append]
    simp
    ring

theorem fractionPositional (digits : Text) :
    Nat.ofDigits (10⁻¹ : ℚ) (0 :: digits.map digitOf) = toNat digits / 10 ^ digits.length := by
  induction digits with
  | nil => simp [Nat.ofDigits, toNat, digitsFrom]
  | cons c digits ih =>
    have first : toNat (c :: digits) = digitOf c * 10 ^ digits.length + toNat digits := by
      change digitsFrom (0 * 10 + digitOf c) digits = _
      rw [digitsFromStart, Nat.zero_mul, Nat.zero_add]
    rw [first, List.map_cons]
    simp only [Nat.ofDigits, Nat.cast_zero, zero_add] at ih ⊢
    rw [ih, List.length_cons, pow_succ]
    push_cast
    field_simp

end Text

/- What a numeral denotes, by the place of each digit before and behind the point. -/
def Numeral.rational (n : Numeral) : ℚ :=
  Binary64.signed n.negative <| (Nat.ofDigits 10 (n.whole.reverse.map Text.digitOf) : ℕ) +
    Nat.ofDigits (10⁻¹ : ℚ) (0 :: n.fraction.map Text.digitOf)

theorem denominatorPos (n : Numeral) : 0 < n.denominator := Nat.pow_pos (by decide)

theorem rationalQuotient (n : Numeral) :
    n.rational = Binary64.signed n.negative (n.numerator / n.denominator) := by
  have joined : n.numerator =
      Text.toNat n.whole * 10 ^ n.fraction.length + Text.toNat n.fraction := by
    rw [Numeral.numerator, Text.toNat, Text.digitsFromAppend, Text.digitsFromStart]
    rfl
  rw [Numeral.rational, ← Text.toNatPositional, Text.fractionPositional, joined,
    Numeral.denominator, Nat.pow_eq]
  congr 1
  push_cast
  field_simp

theorem rationalSize (n : Numeral) : |n.rational| = n.numerator / n.denominator := by
  have least : (0 : ℚ) ≤ n.numerator / n.denominator := by positivity
  rw [rationalQuotient, Binary64.signed]
  split
  · rw [abs_neg, abs_of_nonneg least]
  · exact abs_of_nonneg least

def Numeral.Small (n : Numeral) : Prop := |n.rational| < 2 ^ 1024 - 2 ^ 970

theorem boundAbove {q : ℚ} (few : q < 2 ^ 10) : q < 2 ^ 1024 - 2 ^ 970 := by
  have high : (2 : ℚ) ^ 970 * 2 ≤ 2 ^ 1024 := by
    rw [← pow_succ]
    exact pow_le_pow_right₀ one_le_two (by decide)
  calc q < 2 ^ 10 := few
    _ ≤ 2 ^ 970 := pow_le_pow_right₀ one_le_two (by decide)
    _ = 2 ^ 970 * 2 - 2 ^ 970 := by rw [mul_two, add_sub_cancel_right]
    _ ≤ 2 ^ 1024 - 2 ^ 970 := sub_le_sub_right high _

theorem roundedFinite (n : Numeral) : n.rounded.isFinite = true ↔ n.Small := by
  rw [Numeral.Small, rationalSize]
  exact Binary64.quotientFinite _ (denominatorPos n) n.negative

theorem roundedSign (n : Numeral) : n.rounded.negative = n.negative :=
  (Binary64.quotientMagnitude n.numerator n.negative).2

theorem roundedNearest {n : Numeral} (small : n.Small) : n.rounded.RoundedFrom n.rational := by
  rw [rationalQuotient]
  exact Binary64.quotientRounded _ (denominatorPos n) _ ((roundedFinite n).mpr small)

theorem roundedIff (n : Numeral) (x : Binary64) : n.rounded = x ∧ x.isFinite = true ↔
    n.Small ∧ x.RoundedFrom n.rational ∧ x.negative = n.negative := by
  constructor
  · rintro ⟨rfl, finite⟩
    have small := (roundedFinite n).mp finite
    exact ⟨small, roundedNearest small, roundedSign n⟩
  · rintro ⟨small, rounded, sign⟩
    cases (roundedNearest small).unique rounded ((roundedSign n).trans sign.symm)
    exact ⟨rfl, rounded.finite⟩

end ParseKit
