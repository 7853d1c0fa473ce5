import Mathlib.Algebra.Order.Field.Rat
import Mathlib.Tactic.FieldSimp
import Mathlib.Tactic.Linarith
import Mathlib.Tactic.Positivity
import Mathlib.Tactic.Ring
import ParseKit.Binary64.Rounding

/-! Rounding is to the nearest. A quotient is measured in units of the smallest number, where the
numbers of its binade are a grid of integers and all smaller numbers are below it.
Main statements: a quotient has a number iff it is less than half a step above the largest, and no
finite number is nearer to it, one that is as near having an odd significand beside an even one. -/
namespace ParseKit

theorem roundEvenSides (n d : Nat) : roundEven n d = n / d ∨ roundEven n d = n / d + 1 := by
  unfold roundEven
  split
  · exact .inl rfl
  · split
    · exact .inr rfl
    · have parity := Nat.mod_two_eq_zero_or_one (n / d)
      omega

theorem roundEvenTie (n d : Nat) (tie : 2 * (n % d) = d) : roundEven n d % 2 = 0 := by
  unfold roundEven
  rw [if_neg (by omega), if_neg (by omega)]
  omega

theorem roundEvenHalf (n : Nat) {d : Nat} (pos : 0 < d) :
    |(roundEven n d : ℚ) - n / d| ≤ 1 / 2 := by
  obtain ⟨below, above⟩ := roundEvenNear n pos
  have positive : (0 : ℚ) < d := by exact_mod_cast pos
  have below : (2 * n : ℚ) ≤ 2 * (d * roundEven n d) + d := by exact_mod_cast below
  have above : (2 * (d * roundEven n d) : ℚ) ≤ 2 * n + d := by exact_mod_cast above
  have split : (n : ℚ) = n / d * d := by field_simp
  rw [abs_le]
  constructor <;> nlinarith

theorem roundEvenMidway (n : Nat) {d : Nat} (pos : 0 < d)
    (midway : |(roundEven n d : ℚ) - n / d| = 1 / 2) : roundEven n d % 2 = 0 := by
  have positive : (0 : ℚ) < d := by exact_mod_cast pos
  have quotient : (n : ℚ) / d = (n / d : ℕ) + (n % d : ℕ) / d := by
    have parts : ((d * (n / d) + n % d : ℕ) : ℚ) = n := by rw [Nat.div_add_mod]
    push_cast at parts
    field_simp
    linarith
  have rest : 0 ≤ ((n % d : ℕ) : ℚ) / d := by positivity
  have small : ((n % d : ℕ) : ℚ) / d < 1 := by
    rw [div_lt_one positive]
    exact_mod_cast Nat.mod_lt n pos
  have half : ((n % d : ℕ) : ℚ) / d = 1 / 2 := by
    rcases roundEvenSides n d with low | high
    · rw [low, quotient, sub_add_cancel_left, abs_neg, abs_of_nonneg rest] at midway
      exact midway
    · rw [high, quotient, Nat.cast_succ, add_sub_add_left_eq_sub,
        abs_of_nonneg (sub_nonneg.mpr small.le)] at midway
      linarith
  refine roundEvenTie n d ?_
  rw [div_eq_div_iff positive.ne' two_ne_zero] at half
  have tie : ((2 * (n % d) : ℕ) : ℚ) = (d : ℕ) := by push_cast; linarith
  exact_mod_cast tie

theorem othersFurther {r k : Nat} {t : ℚ} (half : |(r : ℚ) - t| ≤ 1 / 2) (other : k ≠ r) :
    1 / 2 ≤ |(k : ℚ) - t| := by
  have apart : (1 : ℚ) ≤ |(k : ℚ) - r| := by
    have whole : (1 : ℤ) ≤ |(k : ℤ) - r| := Int.one_le_abs (by omega)
    exact_mod_cast whole
  have triangle := abs_sub_le (k : ℚ) t r
  rw [abs_sub_comm t] at triangle
  linarith

theorem roundEvenNearest (n : Nat) {d : Nat} (pos : 0 < d) (k : Nat) :
    |(roundEven n d : ℚ) - n / d| ≤ |(k : ℚ) - n / d| ∧ (k ≠ roundEven n d →
      |(k : ℚ) - n / d| = |(roundEven n d : ℚ) - n / d| → roundEven n d % 2 = 0) := by
  have half := roundEvenHalf n pos
  constructor
  · by_cases same : k = roundEven n d
    · rw [same]
    · exact half.trans (othersFurther half same)
  · intro other tie
    have further := othersFurther half other
    exact roundEvenMidway n pos (le_antisymm half (tie ▸ further))

namespace Binary64

theorem unitsScaled {s r : Nat} (least : s = 0 ∨ exponentUnit ≤ r) (most : r ≤ 2 * exponentUnit) :
    units (s * exponentUnit + r) = r * 2 ^ s ∧
      (r % 2 = 0 → significand (s * exponentUnit + r) % 2 = 0) := by
  unfold units significand scale
  rw [Nat.pow_eq]
  have unit : exponentUnit = 4503599627370496 := rfl
  have divided : (s * exponentUnit + r) / exponentUnit = s + r / exponentUnit := by
    rw [Nat.add_comm, Nat.add_mul_div_right _ _ (by decide : 0 < exponentUnit), Nat.add_comm]
  have left : (s * exponentUnit + r) % exponentUnit = r % exponentUnit := by
    rw [Nat.add_comm, Nat.add_mul_mod_self_right]
  rw [divided, left]
  -- A full significand carries into the exponent; one without a leading bit has the lowest scale.
  by_cases full : r = 2 * exponentUnit
  · subst full
    have two : 2 * exponentUnit / exponentUnit = 2 := rfl
    have none : 2 * exponentUnit % exponentUnit = 0 := rfl
    rw [two, none, if_neg (by omega), Nat.add_zero]
    refine ⟨?_, fun _ => rfl⟩
    rw [show s + 2 - 1 = s + 1 by omega, Nat.pow_succ']
    ring
  · by_cases normal : exponentUnit ≤ r
    · have one : r / exponentUnit = 1 := Nat.div_eq_of_lt_le (by omega) (by omega)
      have rest : r % exponentUnit = r - exponentUnit := by
        rw [Nat.mod_eq_sub_mod normal, Nat.mod_eq_of_lt (by omega)]
      rw [one, rest, if_neg (by omega), Nat.add_sub_cancel]
      have whole : exponentUnit + (r - exponentUnit) = r := by omega
      rw [whole]
      exact ⟨rfl, id⟩
    · have lowest : s = 0 := by omega
      have zero : r / exponentUnit = 0 := Nat.div_eq_of_lt (by omega)
      rw [lowest, zero, if_pos rfl]
      simp

def unitsOf (n d : Nat) : ℚ := (n * one : ℕ) / (d : ℚ)

structure InBinade (s : Nat) (t : ℚ) : Prop where
  least : s = 0 ∨ exponentUnit * 2 ^ s ≤ t
  most : t < 2 * exponentUnit * 2 ^ s

theorem scaleBounds (m : Nat) :
    (m.log2 - 52 = 0 ∨ exponentUnit * 2 ^ (m.log2 - 52) ≤ m) ∧
      m < 2 * exponentUnit * 2 ^ (m.log2 - 52) := by
  have unit : exponentUnit = 2 ^ 52 := rfl
  have above := Nat.lt_log2_self (n := m)
  rw [unit, ← Nat.pow_succ', ← Nat.pow_add, ← Nat.pow_add]
  constructor
  · by_cases low : m.log2 ≤ 52
    · exact .inl (by omega)
    · have some : m ≠ 0 := by
        rintro rfl
        exact low (by decide)
      have below := Nat.log2_self_le some
      rw [show 52 + (m.log2 - 52) = m.log2 by omega]
      exact .inr below
  · exact above.trans_le (Nat.pow_le_pow_right two_pos (by omega))

theorem quotientInBinade (n : Nat) {d : Nat} (pos : 0 < d) :
    InBinade (scaleOf n d) (unitsOf n d) := by
  unfold unitsOf
  obtain ⟨least, most⟩ := scaleBounds (n * one / d)
  have positive : (0 : ℚ) < d := by exact_mod_cast pos
  constructor
  · refine least.imp id fun least => ?_
    rw [Nat.le_div_iff_mul_le pos] at least
    rw [le_div_iff₀ positive]
    exact_mod_cast least
  · rw [Nat.div_lt_iff_lt_mul pos] at most
    rw [div_lt_iff₀ positive]
    exact_mod_cast most

theorem unitsOnGrid (y s : Nat) :
    (∃ k, units y = k * 2 ^ s) ∨ (s ≠ 0 ∧ units y < exponentUnit * 2 ^ s) := by
  by_cases fine : scale y < s
  · right
    refine ⟨by omega, ?_⟩
    have low : significand y < 2 * exponentUnit := by
      unfold significand
      have rest := Nat.mod_lt y (by decide : 0 < exponentUnit)
      split
      · next zero =>
        have := (Nat.div_eq_zero_iff_lt (by decide : 0 < exponentUnit)).mp zero
        omega
      · omega
    calc units y < 2 * exponentUnit * 2 ^ scale y :=
        Nat.mul_lt_mul_of_pos_right low (Nat.two_pow_pos _)
      _ = exponentUnit * 2 ^ (scale y + 1) := by rw [Nat.pow_succ]; ring
      _ ≤ exponentUnit * 2 ^ s := Nat.mul_le_mul_left _ (Nat.pow_le_pow_right two_pos fine)
  · left
    refine ⟨significand y * 2 ^ (scale y - s), ?_⟩
    rw [Nat.mul_assoc, ← Nat.pow_add, Nat.sub_add_cancel (by omega)]
    rfl

def steps (n d : Nat) : Nat := roundEven (n * one) (d * Nat.pow 2 (scaleOf n d))

section
variable (n : Nat) {d : Nat} (pos : 0 < d)
include pos

theorem stepsScaled : (unitsOf n d : ℚ) =
    ((n * one : ℕ) : ℚ) / (d * Nat.pow 2 (scaleOf n d) : ℕ) * 2 ^ scaleOf n d := by
  have positive : (0 : ℚ) < d := by exact_mod_cast pos
  rw [unitsOf, Nat.pow_eq]
  generalize n * one = m
  push_cast
  field_simp

theorem stepsPos : 0 < d * Nat.pow 2 (scaleOf n d) := Nat.mul_pos pos (Nat.two_pow_pos _)

theorem stepsBounds :
    (scaleOf n d = 0 ∨ exponentUnit ≤ steps n d) ∧ steps n d ≤ 2 * exponentUnit := by
  obtain ⟨least, most⟩ := quotientInBinade n pos
  have half := abs_le.mp (roundEvenHalf (n * one) (stepsPos n pos))
  have scaled := stepsScaled n pos
  have positive : (0 : ℚ) < 2 ^ scaleOf n d := by positivity
  rw [scaled] at least most
  constructor
  · refine least.imp id fun least => ?_
    have least := le_of_mul_le_mul_right least positive
    have near : (exponentUnit : ℚ) < (steps n d + 1 : ℕ) := by
      push_cast
      unfold steps
      linarith
    exact Nat.lt_succ_iff.mp (by exact_mod_cast near)
  · have most := lt_of_mul_lt_mul_right most positive.le
    have near : (steps n d : ℚ) < (2 * exponentUnit + 1 : ℕ) := by
      push_cast
      unfold steps
      linarith
    exact Nat.lt_succ_iff.mp (by exact_mod_cast near)

theorem nearestSteps : units (nearest n d) = steps n d * 2 ^ scaleOf n d ∧
    (steps n d % 2 = 0 → significand (nearest n d) % 2 = 0) := by
  obtain ⟨least, most⟩ := stepsBounds n pos
  exact unitsScaled least most

theorem nearestUnits (y : Nat) :
    |(units (nearest n d) : ℚ) - unitsOf n d| ≤ |(units y : ℚ) - unitsOf n d| ∧
      (units y ≠ units (nearest n d) →
        |(units y : ℚ) - unitsOf n d| = |(units (nearest n d) : ℚ) - unitsOf n d| →
          significand (nearest n d) % 2 = 0) := by
  obtain ⟨given, even⟩ := nearestSteps n pos
  have scaled := stepsScaled n pos
  have positive : (0 : ℚ) < 2 ^ scaleOf n d := by positivity
  have distance (k : Nat) : |((k * 2 ^ scaleOf n d : ℕ) : ℚ) - unitsOf n d| =
      |(k : ℚ) - (n * one : ℕ) / (d * Nat.pow 2 (scaleOf n d) : ℕ)| * 2 ^ scaleOf n d := by
    rw [scaled]
    push_cast
    rw [← sub_mul, abs_mul, abs_of_pos positive]
  have nearest (k : Nat) := roundEvenNearest (n * one) (stepsPos n pos) k
  rw [given, distance]
  rcases unitsOnGrid y (scaleOf n d) with ⟨k, onGrid⟩ | ⟨some, below⟩
  · obtain ⟨near, tie⟩ := nearest k
    rw [onGrid, distance]
    refine ⟨mul_le_mul_of_nonneg_right near positive.le, fun other same => even (tie ?_ ?_)⟩
    · rintro rfl
      exact other rfl
    · exact mul_right_cancel₀ positive.ne' same
  · obtain ⟨near, -⟩ := nearest exponentUnit
    have near := mul_le_mul_of_nonneg_right near positive.le
    rw [← distance exponentUnit] at near
    have least := (quotientInBinade n pos).least.resolve_left some
    have below : (units y : ℚ) < (exponentUnit * 2 ^ scaleOf n d : ℕ) := by exact_mod_cast below
    have least : ((exponentUnit * 2 ^ scaleOf n d : ℕ) : ℚ) ≤ unitsOf n d := by exact_mod_cast least
    rw [abs_of_nonpos (by linarith : (units y : ℚ) - unitsOf n d ≤ 0)]
    rw [abs_of_nonpos (by linarith : ((exponentUnit * 2 ^ scaleOf n d : ℕ) : ℚ) - unitsOf n d ≤ 0)]
      at near
    unfold steps
    exact ⟨by linarith, fun _ same => by linarith⟩

theorem stepsFinite (top : scaleOf n d = 2045) :
    steps n d < 2 * exponentUnit ↔ unitsOf n d < (2 ^ 54 - 1) * 2 ^ 2044 := by
  have half : |(steps n d : ℚ) - _| ≤ _ := roundEvenHalf (n * one) (stepsPos n pos)
  have midway : |(steps n d : ℚ) - _| = _ → steps n d % 2 = 0 :=
    roundEvenMidway (n * one) (stepsPos n pos)
  have scaled := stepsScaled n pos
  generalize ((n * one : ℕ) : ℚ) / (d * Nat.pow 2 (scaleOf n d) : ℕ) = t at half midway scaled
  have half := abs_le.mp half
  rw [scaled, top, pow_succ (2 : ℚ) 2044, ← mul_assoc, mul_right_comm,
    mul_lt_mul_iff_left₀ (by positivity : (0 : ℚ) < 2 ^ 2044)]
  have unit : exponentUnit = 2 ^ 52 := rfl
  constructor
  · intro finite
    have most : (steps n d : ℚ) ≤ 2 ^ 53 - 1 := by
      have less : ((steps n d + 1 : ℕ) : ℚ) ≤ (2 ^ 53 : ℕ) := by exact_mod_cast (by omega)
      push_cast at less
      linarith
    -- A tie would go to the even neighbour, which is too large.
    by_contra beyond
    have high : (steps n d : ℚ) = 2 ^ 53 - 1 := by linarith
    have even := midway (by rw [abs_eq (by norm_num)]; exact .inr (by linarith))
    have odd : steps n d = 2 ^ 53 - 1 := by
      have same : ((steps n d + 1 : ℕ) : ℚ) = (2 ^ 53 : ℕ) := by push_cast; linarith
      have same : steps n d + 1 = 2 ^ 53 := by exact_mod_cast same
      omega
    rw [odd] at even
    cases even
  · intro below
    have less : (steps n d : ℚ) < (2 * exponentUnit : ℕ) := by
      rw [unit]
      push_cast
      linarith
    exact_mod_cast less

theorem nearestFinite : nearest n d < limit ↔ unitsOf n d < (2 ^ 54 - 1) * 2 ^ 2044 := by
  obtain ⟨least, most⟩ := stepsBounds n pos
  have binade := quotientInBinade n pos
  have joined : nearest n d = scaleOf n d * exponentUnit + steps n d := rfl
  have positive : (0 : ℚ) < 2 ^ 2044 := by positivity
  have unit : (exponentUnit : ℚ) = 2 ^ 52 := by norm_num [exponentUnit]
  have unitPos : 0 < exponentUnit := by decide
  rw [joined, limit]
  rcases lt_trichotomy (scaleOf n d) 2045 with low | top | high
  · have within : unitsOf n d < 2 * exponentUnit * 2 ^ 2044 :=
      binade.most.trans_le (mul_le_mul_of_nonneg_left
        (pow_le_pow_right₀ one_le_two (by omega)) (by positivity))
    have below := Nat.mul_le_mul_right exponentUnit (by omega : scaleOf n d ≤ 2044)
    refine iff_of_true (by omega) (within.trans ?_)
    rw [unit]
    exact mul_lt_mul_of_pos_right (by norm_num) positive
  · rw [← stepsFinite n pos top, top]
    omega
  · have beyond : exponentUnit * 2 ^ 2046 ≤ unitsOf n d :=
      (mul_le_mul_of_nonneg_left (pow_le_pow_right₀ one_le_two (by omega)) (by positivity)).trans
        (binade.least.resolve_left (by omega))
    have some := least.resolve_left (by omega)
    have above := Nat.mul_le_mul_right exponentUnit (by omega : 2046 ≤ scaleOf n d)
    refine iff_of_false (by omega) (not_lt.mpr (le_trans ?_ beyond))
    rw [unit, show (2046 : ℕ) = 2 + 2044 from rfl, pow_add, ← mul_assoc]
    exact mul_le_mul_of_nonneg_right (by norm_num) positive.le

end

theorem negativeOfMagnitude (negative : Bool) {pattern : Nat} (small : pattern < signBit) :
    (ofMagnitude negative pattern).negative = negative := by
  unfold signBit at small
  cases negative <;>
    simp [ofMagnitude, Binary64.negative, signBit, UInt64.toNat_ofNat'] <;> omega

def signed (negative : Bool) (size : ℚ) : ℚ := if negative then -size else size

theorem signedApart (negative : Bool) (s t : ℚ) :
    |signed negative s - signed negative t| = |s - t| := by
  cases negative
  · rfl
  · rw [signed, signed, if_pos rfl, if_pos rfl, neg_sub_neg, abs_sub_comm]

theorem signedAcross {negative other : Bool} (across : other ≠ negative) {s t : ℚ} (least : 0 ≤ s)
    (least' : 0 ≤ t) : |signed other s - signed negative t| = s + t := by
  cases negative <;> cases other
  · exact absurd rfl across
  · simp only [signed, if_true, Bool.false_eq_true, if_false]
    rw [abs_of_nonpos (by linarith)]
    ring
  · simp only [signed, if_true, Bool.false_eq_true, if_false]
    rw [abs_of_nonneg (by linarith)]
    ring
  · exact absurd rfl across

def value (x : Binary64) : ℚ := signed x.negative (units x.magnitude / one)

/-- The number is finite, no finite number is nearer to the fraction, and if another is as near then
this one has the even significand. -/
structure RoundedFrom (q : ℚ) (x : Binary64) : Prop where
  finite : x.isFinite = true
  near : ∀ y : Binary64, y.isFinite = true → |x.value - q| ≤ |y.value - q|
  even : ∀ y : Binary64, y.isFinite = true → y.value ≠ x.value →
    |y.value - q| = |x.value - q| → significand x.magnitude % 2 = 0

theorem oneIsPower : (one : ℚ) = 2 ^ 1074 := by
  unfold one
  generalize 1074 = k
  rw [Nat.pow_eq]
  push_cast
  rfl

theorem onePositive : (0 : ℚ) < one := by
  rw [oneIsPower]
  positivity

theorem sizeLeast (pattern : Nat) : (0 : ℚ) ≤ units pattern / one :=
  div_nonneg (Nat.cast_nonneg _) onePositive.le

theorem valueSize (x : Binary64) : |x.value| = units x.magnitude / one := by
  unfold value signed
  split
  · rw [abs_neg, abs_of_nonneg (sizeLeast _)]
  · exact abs_of_nonneg (sizeLeast _)

theorem zeroValue : (⟨0⟩ : Binary64).value = 0 := by
  have none : units 0 = 0 := rfl
  change signed false (units 0 / one) = 0
  rw [none, Nat.cast_zero, zero_div]
  rfl

theorem unitsApart (pattern n d : Nat) :
    |(units pattern : ℚ) / one - n / d| = |(units pattern : ℚ) - unitsOf n d| / one := by
  have positive := onePositive
  have same : (n : ℚ) / d = unitsOf n d / one := by
    rw [unitsOf]
    push_cast
    field_simp
  rw [same, ← sub_div, abs_div, abs_of_pos positive]

section
variable (n : Nat) {d : Nat} (pos : 0 < d) (negative : Bool)
include pos

theorem sizeNearest (y : Nat) :
    |(units (nearest n d) : ℚ) / one - n / d| ≤ |(units y : ℚ) / one - n / d| ∧
      ((units y : ℚ) / one ≠ units (nearest n d) / one →
        |(units y : ℚ) / one - n / d| = |(units (nearest n d) : ℚ) / one - n / d| →
          significand (nearest n d) % 2 = 0) := by
  obtain ⟨near, even⟩ := nearestUnits n pos y
  have positive := onePositive
  simp only [unitsApart]
  refine ⟨div_le_div_of_nonneg_right near positive.le, fun other same => even ?_ ?_⟩
  · intro equal
    exact other (by rw [equal])
  · exact (div_left_inj' positive.ne').mp same

theorem signedNearest (y : Binary64) :
    |signed negative (units (nearest n d) / one) - signed negative (n / d)| ≤
        |y.value - signed negative (n / d)| ∧
      (y.value ≠ signed negative (units (nearest n d) / one) →
        |y.value - signed negative (n / d)| =
          |signed negative (units (nearest n d) / one) - signed negative (n / d)| →
        significand (nearest n d) % 2 = 0) := by
  rw [value, signedApart]
  by_cases alike : y.negative = negative
  · obtain ⟨near, even⟩ := sizeNearest n pos y.magnitude
    rw [alike, signedApart]
    refine ⟨near, fun other => even fun equal => other ?_⟩
    rw [equal]
  · have fraction : (0 : ℚ) ≤ n / d := by positivity
    have least := sizeLeast y.magnitude
    have none : units 0 = 0 := by decide
    obtain ⟨near, even⟩ := sizeNearest n pos 0
    rw [none, Nat.cast_zero, zero_div, zero_sub, abs_neg, abs_of_nonneg fraction] at near even
    rw [signedAcross alike least fraction]
    refine ⟨near.trans (le_add_of_nonneg_left least), fun other same => ?_⟩
    have zero : (units y.magnitude : ℚ) / one = 0 := by linarith
    rw [zero, zero_add] at same
    refine even (fun equal => other ?_) same
    rw [zero, ← equal]
    simp [signed]

omit pos in
theorem quotientMagnitude :
    (ofQuotient negative n d).magnitude = min (nearest n d) limit ∧
      (ofQuotient negative n d).negative = negative := by
  have small : min (nearest n d) limit < signBit := lt_of_le_of_lt (min_le_right _ _) (by decide)
  exact ⟨magnitudeOfMagnitude negative small, negativeOfMagnitude negative small⟩

omit pos in
theorem quotientFiniteNearest :
    (ofQuotient negative n d).isFinite = true ↔ nearest n d < limit := by
  rw [isFinite, (quotientMagnitude n negative).1, decide_eq_true_iff]
  omega

theorem quotientRounded (finite : (ofQuotient negative n d).isFinite = true) :
    (ofQuotient negative n d).RoundedFrom (signed negative (n / d)) := by
  obtain ⟨pattern, sign⟩ := quotientMagnitude (d := d) n negative
  rw [min_eq_left ((quotientFiniteNearest n negative).mp finite).le] at pattern
  have closest := signedNearest n pos negative
  have value : (ofQuotient negative n d).value = signed negative (units (nearest n d) / one) := by
    rw [value, sign, pattern]
  rw [← value] at closest
  refine ⟨finite, fun y _ => (closest y).1, fun y _ => ?_⟩
  rw [pattern]
  exact (closest y).2

omit pos in
theorem unitsFinite :
    unitsOf n d < (2 ^ 54 - 1) * 2 ^ 2044 ↔ (n : ℚ) / d < 2 ^ 1024 - 2 ^ 970 := by
  have bound : ((2 : ℚ) ^ 54 - 1) * 2 ^ 2044 = (2 ^ 1024 - 2 ^ 970) * one := by
    rw [oneIsPower, sub_mul, sub_mul, ← pow_add, ← pow_add, ← pow_add, one_mul]
  have same : unitsOf n d = n / d * one := by
    rw [unitsOf]
    push_cast
    ring
  rw [bound, same, mul_lt_mul_iff_left₀ onePositive]

theorem quotientFinite :
    (ofQuotient negative n d).isFinite = true ↔ (n : ℚ) / d < 2 ^ 1024 - 2 ^ 970 := by
  rw [← unitsFinite, ← nearestFinite n pos, quotientFiniteNearest]

end

theorem nearerAbove {s t q : ℚ} (less : s < t) (near : |t - q| ≤ |s - q|) : s + t ≤ 2 * q := by
  have squares := sq_le_sq.mpr near
  nlinarith

theorem nearerBelow {s t q : ℚ} (less : s < t) (near : |s - q| ≤ |t - q|) : 2 * q ≤ s + t := by
  have squares := sq_le_sq.mpr near
  nlinarith

theorem RoundedFrom.monotone {x y : Binary64} {q r : ℚ} (first : x.RoundedFrom q)
    (second : y.RoundedFrom r) (less : q < r) : x.value ≤ y.value := by
  by_contra above
  have below : y.value < x.value := not_le.mp above
  have upper := nearerAbove below (first.near y second.finite)
  have lower := nearerBelow below (second.near x first.finite)
  linarith

theorem RoundedFrom.vanishes {x : Binary64} {q : ℚ} (rounded : x.RoundedFrom q)
    (tiny : |q| ≤ 1 / 2 ^ 1075) : x.value = 0 := by
  have positive := onePositive
  have near := rounded.near ⟨0⟩ rfl
  rw [zeroValue, zero_sub, abs_neg] at near
  have half : 2 * |q| ≤ 1 / one := by
    rw [pow_succ, ← oneIsPower] at tiny
    calc 2 * |q| ≤ 2 * (1 / (one * 2)) := by linarith
      _ = 1 / one := by ring
  have triangle := abs_sub_abs_le_abs_sub x.value q
  -- Beyond the smallest number nothing is as near as zero, and that one is odd.
  have few : (units x.magnitude : ℚ) / one ≤ 1 / one := by
    rw [← valueSize]
    linarith
  rw [div_le_div_iff_of_pos_right positive, Nat.cast_le_one] at few
  rcases Nat.le_one_iff_eq_zero_or_eq_one.mp few with none | least
  · rw [← abs_eq_zero, valueSize, none, Nat.cast_zero, zero_div]
  · exfalso
    have size : |x.value| = 1 / one := by rw [valueSize, least, Nat.cast_one]
    have other : (⟨0⟩ : Binary64).value ≠ x.value := by
      rw [zeroValue]
      intro same
      rw [← same, abs_zero] at size
      exact (div_pos one_pos positive).ne size
    have even := rounded.even ⟨0⟩ rfl other (by
      rw [zeroValue, zero_sub, abs_neg]
      linarith)
    have odd : significand x.magnitude = 1 := Nat.eq_one_of_mul_eq_one_right least
    rw [odd] at even
    cases even

theorem unitsNext (pattern : Nat) : units (pattern + 1) = units pattern + 2 ^ scale pattern := by
  unfold units significand scale
  simp only [Nat.pow_eq]
  by_cases carries : (pattern + 1) % exponentUnit = 0
  · have up : (pattern + 1) / exponentUnit = pattern / exponentUnit + 1 := by
      unfold exponentUnit at *
      omega
    have last : pattern % exponentUnit = exponentUnit - 1 := by
      unfold exponentUnit at *
      omega
    rw [up, carries, last, if_neg (Nat.succ_ne_zero _)]
    split
    · next low =>
      rw [low]
      unfold exponentUnit at *
      omega
    · next some =>
      obtain ⟨e, high⟩ := Nat.exists_eq_succ_of_ne_zero some
      rw [high]
      simp only [Nat.succ_eq_add_one, Nat.add_sub_cancel, Nat.add_zero, pow_succ]
      unfold exponentUnit
      omega
  · have same : (pattern + 1) / exponentUnit = pattern / exponentUnit := by
      unfold exponentUnit at *
      omega
    have next : (pattern + 1) % exponentUnit = pattern % exponentUnit + 1 := by
      unfold exponentUnit at *
      omega
    rw [same, next]
    split
    · rw [Nat.add_mul, Nat.one_mul]
    · rw [← Nat.add_assoc, Nat.add_mul _ 1, Nat.one_mul]

theorem unitsGrow : StrictMono units :=
  strictMono_nat_of_lt_succ fun pattern => by
    rw [unitsNext]
    exact Nat.lt_add_of_pos_right (Nat.two_pow_pos _)

theorem significandNext (pattern : Nat) :
    significand (pattern + 1) % 2 ≠ significand pattern % 2 := by
  unfold significand exponentUnit
  split <;> split <;> omega

theorem magnitudeSigned (x : Binary64) : ofMagnitude x.negative x.magnitude = x := by
  have small := x.bits.toNat_lt
  unfold ofMagnitude negative magnitude signBit
  refine congrArg Binary64.mk (UInt64.toNat_inj.mp ?_)
  rw [UInt64.toNat_ofNat']
  split <;> simp_all <;> omega

theorem nearerBetween {a b c t : ℚ} (below : a < c) (above : c < b) (tie : |a - t| = |b - t|) :
    |c - t| < |a - t| := by
  rcases abs_eq_abs.mp tie with same | midway
  · linarith
  · rw [abs_of_neg (by linarith : a - t < 0)]
    exact abs_lt.mpr ⟨by linarith, by linarith⟩

theorem RoundedFrom.least {x y : Binary64} {q : ℚ} (first : x.RoundedFrom q)
    (second : y.RoundedFrom q) (sign : x.negative = y.negative) :
    ¬x.magnitude < y.magnitude := by
  intro less
  have positive := onePositive
  have size (z : Binary64) (alike : z.negative = x.negative) :
      |z.value - q| = |(units z.magnitude : ℚ) / one - signed x.negative q| := by
    have twice : signed x.negative (signed x.negative q) = q := by
      cases x.negative <;> simp [signed]
    have apart := signedApart x.negative (units z.magnitude / one) (signed x.negative q)
    rwa [twice, ← alike, ← value, alike] at apart
  have grows {a b : Nat} (less : a < b) : (units a : ℚ) / one < units b / one :=
    (div_lt_div_iff_of_pos_right positive).mpr (Nat.cast_lt.mpr (unitsGrow less))
  have tie : |x.value - q| = |y.value - q| :=
    le_antisymm (first.near y second.finite) (second.near x first.finite)
  have apart : x.value ≠ y.value := by
    unfold value
    rw [sign]
    intro same
    have none := signedApart y.negative (units x.magnitude / one) (units y.magnitude / one)
    rw [same, sub_self, abs_zero] at none
    linarith [abs_eq_zero.mp none.symm, grows less]
  have evens : significand x.magnitude % 2 = 0 ∧ significand y.magnitude % 2 = 0 :=
    ⟨first.even y second.finite apart.symm tie.symm, second.even x first.finite apart tie⟩
  -- Of two neighbours one would have an odd significand, and what is between them would be nearer.
  have between : x.magnitude + 1 < y.magnitude := by
    rcases Nat.lt_or_ge (x.magnitude + 1) y.magnitude with between | next
    · exact between
    · have next : y.magnitude = x.magnitude + 1 := by omega
      have parity := significandNext x.magnitude
      rw [← next] at parity
      omega
  have top : y.magnitude < limit := of_decide_eq_true second.finite
  have small : x.magnitude + 1 < signBit := by
    have bound : limit < signBit := by decide
    omega
  let z := ofMagnitude x.negative (x.magnitude + 1)
  have pattern : z.magnitude = x.magnitude + 1 := magnitudeOfMagnitude _ small
  have alike : z.negative = x.negative := negativeOfMagnitude _ small
  have finite : z.isFinite = true := by
    rw [isFinite, pattern]
    exact decide_eq_true (by omega)
  have nearer := first.near z finite
  have below := grows (Nat.lt_succ_self x.magnitude)
  have above := grows between
  rw [size x rfl, size z alike, pattern] at nearer
  rw [size x rfl, size y sign.symm] at tie
  exact absurd nearer (not_le.mpr (nearerBetween below above tie))

theorem RoundedFrom.unique {x y : Binary64} {q : ℚ} (first : x.RoundedFrom q)
    (second : y.RoundedFrom q) (sign : x.negative = y.negative) : x = y := by
  have below := second.least first sign.symm
  have above := first.least second sign
  have same : x.magnitude = y.magnitude := by omega
  rw [← magnitudeSigned x, ← magnitudeSigned y, sign, same]

end Binary64

end ParseKit
