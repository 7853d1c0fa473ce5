import ParseKit.Script.Value
/-!
Two notions of equality of values. Identical values are of one kind and have one written
form, in which functions and parsers show nothing of what they do. Equal values may differ in
kind: truth values count as the integers zero and one, and an integer equals the float of the
same value. The zeros are equal. NaNs, functions and parsers equal only themselves.
-/
namespace ParseKit.Script.Value

mutual

def identical : Value → Value → Bool
  | none, none => true
  | bool a, bool b => a == b
  | int a, int b => a == b
  | float x, float y => x.bits == y.bits || x.isNaN && y.isNaN
  | str s, str t => s == t
  | list vs, list ws => allIdentical vs ws
  | tuple vs, tuple ws => allIdentical vs ws
  | builtin a, builtin b => a == b
  | lambda .., lambda .. => true
  | blockFn .., blockFn .. => true
  | parser .., parser .. => true
  | failure, failure => true
  | success v rest, success w rest' => v.identical w && rest.identical rest'
  | _, _ => false

def allIdentical : List Value → List Value → Bool
  | [], [] => true
  | v :: vs, w :: ws => v.identical w && allIdentical vs ws
  | _, _ => false

end

def isNaN : Value → Bool
  | float x => x.isNaN
  | _ => false

def asInt? : Value → Option Int
  | float x => x.toInt?
  | v => v.integer?

mutual

def equal : Value → Value → Bool
  | none, none => true
  | float x, float y => x == y || x.isZero && y.isZero
  | str s, str t => s == t
  | list vs, list ws => allEqual vs ws
  | tuple vs, tuple ws => allEqual vs ws
  | builtin a, builtin b => a == b
  | lambda m .., lambda n .. => m == n
  | blockFn m .., blockFn n .. => m == n
  | parser m _, parser n _ => m == n
  | failure, failure => true
  | success v rest, success w rest' => v.equal w && rest.equal rest'
  | v, w =>
    match v.asInt?, w.asInt? with
    | some m, some n => m == n
    | _, _ => false

def allEqual : List Value → List Value → Bool
  | [], [] => true
  | v :: vs, w :: ws => v.equal w && allEqual vs ws
  | _, _ => false

end

end ParseKit.Script.Value
