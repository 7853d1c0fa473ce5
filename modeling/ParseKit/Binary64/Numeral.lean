import ParseKit.Binary64.Rounding
import ParseKit.Text.CharClass
/-!
Decimal numerals: an optional minus sign, digits, and an optional point with more digits.
A numeral denotes an exact fraction, which is rounded once. Exponents, plus signs and separators
are not part of the notation.
-/
namespace ParseKit

structure Numeral where
  negative : Bool
  whole : Text
  fraction : Text
  deriving DecidableEq, Repr

namespace Numeral

def text (x : Numeral) : Text :=
  (if x.negative then ['-'] else []) ++ x.whole ++
    (if x.fraction.isEmpty then [] else '.' :: x.fraction)

def ofUnsigned? (negative : Bool) (text : Text) : Option Numeral :=
  let whole := text.takeWhile CharClass.digit.holds
  match text.dropWhile CharClass.digit.holds with
  | [] => some ⟨negative, whole, []⟩
  | '.' :: fraction =>
    if fraction.all CharClass.digit.holds then some ⟨negative, whole, fraction⟩ else none
  | _ => none

def ofText? : Text → Option Numeral
  | '-' :: unsigned => ofUnsigned? true unsigned
  | unsigned => ofUnsigned? false unsigned

def numerator (x : Numeral) : Nat := Text.toNat (x.whole ++ x.fraction)

def denominator (x : Numeral) : Nat := Nat.pow 10 x.fraction.length

def hasDigit (x : Numeral) : Bool := !(x.whole.isEmpty && x.fraction.isEmpty)

def rounded (x : Numeral) : Binary64 :=
  Binary64.ofQuotient x.negative x.numerator x.denominator

end Numeral

def Binary64.ofText? (text : Text) : Option Binary64 :=
  match Numeral.ofText? text with
  | some x => if x.hasDigit then some x.rounded else none
  | none => none

end ParseKit
