import ParseKit.Script.Equality
/-!
Operators between values. Between parsers they build parsers. Between values that are no
parsers they are operators on numbers: bits of integers are combined and shifted, and
numbers, texts, lists and tuples are compared. A comparison with a parser on its right only
is turned around, so that there the right operand is applied first.
-/
namespace ParseKit.Script

def bitsOr : Int → Int → Int
  | .ofNat m, .ofNat n => .ofNat (m ||| n)
  | .ofNat m, .negSucc n => .negSucc (n - (m &&& n))
  | .negSucc m, .ofNat n => .negSucc (m - (m &&& n))
  | .negSucc m, .negSucc n => .negSucc (m &&& n)

def bitsAnd : Int → Int → Int
  | .ofNat m, .ofNat n => .ofNat (m &&& n)
  | .ofNat m, .negSucc n => .ofNat (m - (m &&& n))
  | .negSucc m, .ofNat n => .ofNat (n - (m &&& n))
  | .negSucc m, .negSucc n => .negSucc (m ||| n)

example : bitsOr (-6) 3 = -5 ∧ bitsOr 4 (-6) = -2 := by decide
example : bitsAnd (-6) 7 = 2 ∧ bitsAnd (-6) (-4) = -8 := by decide

namespace Value

def isNumber : Value → Bool
  | bool _ | int _ | float _ => true
  | _ => false

/- Where a number lies: below or above the finite numbers, or among them and so many units
from zero. A NaN lies nowhere. -/
def place? : Value → Option (Int × Int)
  | float x =>
    if x.isNaN then Option.none
    else if x.isFinite then
      let n : Int := Binary64.units x.magnitude
      some (0, if x.negative then -n else n)
    else some (if x.negative then -1 else 1, 0)
  | v => v.integer?.map fun n => (0, n * Binary64.one)

def numberLess (v w : Value) : Bool :=
  match v.place?, w.place? with
  | some (r, m), some (s, n) => r < s || r == s && m < n
  | _, _ => false

end Value

inductive Bitwise where
  | bar | ampersand | shift
  deriving DecidableEq, Repr

namespace Bitwise

def symbol : Bitwise → String
  | bar => "|"
  | ampersand => "&"
  | shift => ">>"

def onIntegers : Bitwise → Int → Int → Except Fault Int
  | bar, m, n => .ok (bitsOr m n)
  | ampersand, m, n => .ok (bitsAnd m n)
  | shift, m, n => if n < 0 then .error .negativeShift else .ok (m >>> n.toNat)

def calculate (op : Bitwise) (v w : Value) : Except Fault Value :=
  match op, v, w with
  | bar, .bool a, .bool b => .ok (.bool (a || b))
  | ampersand, .bool a, .bool b => .ok (.bool (a && b))
  | op, v, w =>
    match v.integer?, w.integer? with
    | some m, some n => (op.onIntegers m n).map .int
    | _, _ => .error (.unsupported op.symbol v.kind w.kind)

def combine : Bitwise → Value → Value → Except Fault Made
  | bar, .parser m a, b => .ok (.parser (.choice [.parser m a, b]))
  | ampersand, .parser m a, b => .ok (.parser (.pair (.parser m a) b))
  | shift, .parser m a, .parser n b => .ok (.parser (.keepRight (.parser m a) (.parser n b)))
  | shift, .parser m a, f => .ok (.parser (.bind (.parser m a) f))
  | op, v, w => (op.calculate v w).map .value

end Bitwise

inductive Comparison where
  | greater | less
  deriving DecidableEq, Repr

namespace Comparison

def symbol : Comparison → String
  | greater => ">"
  | less => "<"

def ordering {α : Type} (less : α → α → Bool) : Comparison → α → α → Bool
  | .greater, a, b => less b a
  | .less, a, b => less a b

def turned : Comparison → Comparison
  | greater => less
  | less => greater

def ofLeft : Comparison → Value → Value → Grammar
  | greater, a, b => .keepRight a b
  | less, a, b => .keepLeft a b

mutual

/- Compares any values. Lists and tuples are compared by their first elements that differ,
and what those give is given, be it a parser; if there are none the shorter list is less. -/
def combine (op : Comparison) : Value → Value → Except Fault Made
  | .parser m a, b => .ok (.parser (op.ofLeft (.parser m a) b))
  | a, .parser m b => .ok (.parser (op.turned.ofLeft (.parser m b) a))
  | .str s, .str t => .ok (.value (.bool (op.ordering Text.less s t)))
  | .list vs, .list ws => combineAll op vs ws
  | .tuple vs, .tuple ws => combineAll op vs ws
  | v, w =>
    if v.isNumber && w.isNumber then .ok (.value (.bool (op.ordering Value.numberLess v w)))
    else .error (.incomparable op.symbol v.kind w.kind)

def combineAll (op : Comparison) : List Value → List Value → Except Fault Made
  | v :: vs, w :: ws => if v.equal w then combineAll op vs ws else combine op v w
  | vs, ws => .ok (.value (.bool (op.ordering (fun m n => m < n) vs.length ws.length)))

end

end Comparison
end ParseKit.Script
