import ParseKit.Binary64.Rounding
import ParseKit.Text.Basic
/-!
Numbers as text with the fewest decimal digits that read back to the same number, and of
those the nearest to it. The layout is positional for exponents from -4 to 15 and has an
exponent of at least two digits beyond. That seventeen digits always suffice is used, not
proved.
-/
namespace ParseKit

structure Decimal where
  digits : Text
  exponent : Int
  deriving DecidableEq, Repr

namespace Decimal

def ofScaled (n : Nat) (k : Int) : Decimal :=
  let digits := Nat.toDigits 10 n
  ⟨(digits.reverse.dropWhile (· == '0')).reverse, k + digits.length - 1⟩

def exponentText (e : Int) : Text :=
  let digits := Nat.toDigits 10 e.natAbs
  (if e < 0 then '-' else '+') :: List.replicate (2 - digits.length) '0' ++ digits

def render (d : Decimal) : Text :=
  if -4 ≤ d.exponent ∧ d.exponent < 0 then
    '0' :: '.' :: List.replicate (-d.exponent - 1).toNat '0' ++ d.digits
  else if 0 ≤ d.exponent ∧ d.exponent < 16 then
    let places := d.exponent.toNat + 1
    let fraction := d.digits.drop places
    d.digits.take places ++ List.replicate (places - d.digits.length) '0' ++
      '.' :: (if fraction.isEmpty then ['0'] else fraction)
  else
    d.digits.take 1 ++ (if d.digits.length ≤ 1 then [] else '.' :: d.digits.drop 1) ++
      'e' :: exponentText d.exponent

end Decimal

namespace Binary64

def leadingExponent (pattern : Nat) : Int :=
  (Nat.toDigits 10 (units pattern * Nat.pow 10 400 / one)).length - 401

def readsBack (pattern n : Nat) (k : Int) : Bool :=
  nearest (n * Nat.pow 10 k.toNat) (Nat.pow 10 (-k).toNat) == pattern

def onGrid? (pattern : Nat) (k : Int) : Option Nat :=
  let n := units pattern * Nat.pow 10 (-k).toNat
  let d := one * Nat.pow 10 k.toNat
  let low := n / d
  match readsBack pattern low k, readsBack pattern (low + 1) k with
  | true, true => some (roundEven n d)
  | true, false => some low
  | false, true => some (low + 1)
  | false, false => none

def shortest (pattern : Nat) : Decimal :=
  let lead := leadingExponent pattern
  let grids : List Int := (List.range 17).map fun (more : Nat) => lead - more
  match grids.findSome? fun k => (onGrid? pattern k).map (Decimal.ofScaled · k) with
  | some decimal => decimal
  | none => Decimal.ofScaled (units pattern) (-1074)

def render (x : Binary64) : Text :=
  if x.isNaN then "nan".toList
  else
    (if x.negative then ['-'] else []) ++
      (if !x.isFinite then "inf".toList
       else if x.isZero then "0.0".toList
       else (shortest x.magnitude).render)

example : render ⟨0x3ff8000000000000⟩ = "1.5".toList := by decide +kernel
example : render ⟨0x8000000000000000⟩ = "-0.0".toList := by decide +kernel
example : render ⟨0x3ee4f8b588e368f1⟩ = "1e-05".toList := by decide +kernel
example : render ⟨0x4341c37937e08000⟩ = "1e+16".toList := by decide +kernel
example : render ⟨0x3fd3333333333334⟩ = "0.30000000000000004".toList := by decide +kernel

end Binary64
end ParseKit
