/-!
Binary floating point of 64 bits. A number is its bit pattern; a finite one has an exact
value, a count of units of 2^-1074, so that comparisons and roundings are done on natural
numbers. Arithmetic (sums, products, quotients) is the processor's, by way of `Float`;
nothing is stated about it.
-/
namespace ParseKit

structure Binary64 where
  bits : UInt64
  deriving DecidableEq, Repr

namespace Binary64

def signBit : Nat := 0x8000000000000000

def exponentUnit : Nat := 0x10000000000000

def magnitude (x : Binary64) : Nat := x.bits.toNat % signBit

def negative (x : Binary64) : Bool := signBit ≤ x.bits.toNat

def limit : Nat := 2047 * exponentUnit

def isFinite (x : Binary64) : Bool := x.magnitude < limit

def isNaN (x : Binary64) : Bool := limit < x.magnitude

def isZero (x : Binary64) : Bool := x.magnitude == 0

def ofMagnitude (negative : Bool) (pattern : Nat) : Binary64 :=
  ⟨UInt64.ofNat (pattern + if negative then signBit else 0)⟩

theorem magnitudeOfMagnitude (negative : Bool) {pattern : Nat} (small : pattern < signBit) :
    (ofMagnitude negative pattern).magnitude = pattern := by
  unfold signBit at small
  cases negative <;> simp [ofMagnitude, magnitude, signBit, UInt64.toNat_ofNat'] <;> omega

def significand (pattern : Nat) : Nat :=
  if pattern / exponentUnit = 0 then pattern else exponentUnit + pattern % exponentUnit

def scale (pattern : Nat) : Nat := pattern / exponentUnit - 1

def units (pattern : Nat) : Nat := significand pattern * Nat.pow 2 (scale pattern)

def one : Nat := Nat.pow 2 1074

def toInt? (x : Binary64) : Option Int :=
  if x.isFinite && units x.magnitude % one == 0 then
    let n : Int := (units x.magnitude / one : Nat)
    some (if x.negative then -n else n)
  else none

def toFloat (x : Binary64) : Float := Float.ofBits x.bits

def ofFloat (x : Float) : Binary64 := ⟨x.toBits⟩

def add (x y : Binary64) : Binary64 := ofFloat (x.toFloat + y.toFloat)
def sub (x y : Binary64) : Binary64 := ofFloat (x.toFloat - y.toFloat)
def mul (x y : Binary64) : Binary64 := ofFloat (x.toFloat * y.toFloat)
def div (x y : Binary64) : Binary64 := ofFloat (x.toFloat / y.toFloat)
def neg (x : Binary64) : Binary64 := ofFloat (-x.toFloat)
def lt (x y : Binary64) : Bool := x.toFloat < y.toFloat

end Binary64
end ParseKit
