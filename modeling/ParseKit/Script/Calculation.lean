import ParseKit.Script.Equality
import ParseKit.Script.Store
/-!
What the built-in functions give for their arguments. Numbers are two integers or two
floats, never one of each, and truth values are no numbers. Any other number or kind of
arguments is a fault.
-/
namespace ParseKit.Script

def readInt? : Text → Option Int
  | [] => none
  | '-' :: digits =>
    if !digits.isEmpty && digits.all Char.isDigit then some (-(Text.toNat digits : Int)) else none
  | digits => if digits.all Char.isDigit then some (Text.toNat digits) else none

def allTexts (start : Nat) : List Value → Except (Nat × Kind) (List Text)
  | [] => .ok []
  | .str s :: vs => (allTexts (start + 1) vs).map (s :: ·)
  | v :: _ => .error (start, v.kind)

def Value.isIn (k : CharClass) : Value → Bool
  | .str s => k.accepts s
  | _ => false

namespace Builtin

def arithmetic? : Builtin → List Value → Option Binary64
  | neg, [.float x] => some x.neg
  | add, [.float x, .float y] => some (x.add y.toBinary64)
  | sub, [.float x, .float y] => some (x.sub y.toBinary64)
  | mul, [.float x, .float y] => some (x.mul y.toBinary64)
  | div, [.float x, .float y] => if y.isZero then none else some (x.div y.toBinary64)
  | _, _ => none

def compute : Builtin → List Value → Option Value
  | identity, [v] => some v
  | int, [.str s] => (readInt? s).map .int
  | str, [.int n] => some (.str (Text.ofInt n))
  | len, [.str s] => some (.int s.length)
  | len, [.list vs] => some (.int vs.length)
  | len, [.tuple vs] => some (.int vs.length)
  | neg, [.int n] => some (.int (-n))
  | upper, [.str s] => some (.str s.upper)
  | rev, [.str s] => some (.str s.reverse)
  | rev, [.list vs] => some (.list vs.reverse)
  | fst, [.tuple (v :: _)] => some v
  | snd, [.tuple (_ :: v :: _)] => some v
  | add, [.int m, .int n] => some (.int (m + n))
  | add, [.str s, .str t] => some (.str (s ++ t))
  | add, [.list vs, .list ws] => some (.list (vs ++ ws))
  | sub, [.int m, .int n] => some (.int (m - n))
  | mul, [.int m, .int n] => some (.int (m * n))
  | pair, [v, w] => some (.tuple [v, w])
  | append, [.list vs, v] => some (.list (vs ++ [v]))
  | join, [.list vs] =>
    match allTexts 0 vs with
    | .ok texts => some (.str texts.flatten)
    | .error _ => none
  | not, [.bool b] => some (.bool !b)
  | eq, [v, w] => some (.bool (v.identical w))
  | lt, [.int m, .int n] => some (.bool (m < n))
  | lt, [.float x, .float y] => some (.bool (x.lt y.toBinary64))
  | _, _ => none

def refusal : Builtin → List Value → Fault
  | div, [.float _, .float _] => .divisionByZero
  | b, _ => .badArguments b.name

def run (b : Builtin) (args : List Value) : Run Value :=
  match b, args with
  | log, [v] => do
    Run.note v
    pure v
  | raise kind, [.str s] => Eff.raise (.raised kind s)
  | holds k, [v] => do return .bool ((← Eff.ofExcept v.hashed).isIn k)
  | b, args =>
    match b.arithmetic? args, b.compute args with
    | some x, _ => Run.number x
    | none, some v => pure v
    | none, none => Eff.raise (b.refusal args)

end Builtin
end ParseKit.Script
