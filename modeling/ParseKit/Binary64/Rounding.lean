import ParseKit.Binary64.Basic
/-!
The number nearest to a quotient of natural numbers, a tie going to the even significand.
The arithmetic is exact whatever the size of the quotient. Quotients too large for a
finite number are infinite.
-/
namespace ParseKit

def roundEven (n d : Nat) : Nat :=
  if 2 * (n % d) < d then n / d
  else if d < 2 * (n % d) then n / d + 1
  else n / d + n / d % 2

theorem roundEvenNear (n : Nat) {d : Nat} (pos : 0 < d) :
    2 * n ≤ 2 * (d * roundEven n d) + d ∧ 2 * (d * roundEven n d) ≤ 2 * n + d := by
  have split := Nat.div_add_mod n d
  have small := Nat.mod_lt n pos
  unfold roundEven
  split
  · omega
  · split
    · rw [Nat.mul_add]; omega
    · rw [Nat.mul_add]
      rcases Nat.mod_two_eq_zero_or_one (n / d) with even | odd
      · rw [even]; omega
      · rw [odd]; omega

namespace Binary64

def scaleOf (n d : Nat) : Nat := (n * one / d).log2 - 52

/- The pattern nearest to `n / d`. A significand that rounds up to 54 bits carries into
the exponent, which is the right pattern too. -/
def nearest (n d : Nat) : Nat :=
  scaleOf n d * exponentUnit + roundEven (n * one) (d * Nat.pow 2 (scaleOf n d))

def ofQuotient (negative : Bool) (n d : Nat) : Binary64 :=
  ofMagnitude negative (min (nearest n d) limit)

end Binary64
end ParseKit
