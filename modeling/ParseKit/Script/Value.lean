import ParseKit.Parser.Basic
import ParseKit.Script.Expr
/-!
The values of scripts. A parser is a value like any other. Its operands are values, and
whether they are parsers mostly shows only when they are applied. Functions and blocks carry
the bindings they were made with. The outcome of a parser is a value too, as a parser is
applied by calling it. Functions, parsers and NaNs have names, as each equals only itself.
-/
namespace ParseKit.Script

inductive Collect where
  | asList
  | joined
  | dropped
  deriving DecidableEq, Repr

inductive Leaf where
  | item | fail | eof | num
  | ofClass (k : CharClass)
  deriving DecidableEq, Repr

inductive Stage where
  | preparing | stepping
  deriving DecidableEq, Repr

/- The name of what equals only itself. Names are counted, and cells apart from the rest, so that
what else is named does not show in their names. What is made while a shared parser is built is
named after that parser, with counts of its own. -/
inductive Name where
  | outer (stage : Stage) (serial cells : Nat)
  | inner (cell : Name) (stage : Stage) (serial cells : Nat)
  deriving DecidableEq, Repr

namespace Name

instance (serial : Nat) : OfNat Name serial := ⟨.outer .preparing serial 0⟩

def stage : Name → Stage
  | outer stage .. => stage
  | inner _ stage .. => stage

def next : Name → Name
  | outer stage serial cells => outer stage (serial + 1) cells
  | inner cell stage serial cells => inner cell stage (serial + 1) cells

def ofCell : Name → Name
  | outer stage _ cells => outer stage 0 cells
  | inner cell stage _ cells => inner cell stage 0 cells

def nextCell : Name → Name
  | outer stage serial cells => outer stage serial (cells + 1)
  | inner cell stage serial cells => inner cell stage serial (cells + 1)

end Name

structure Floating extends Binary64 where
  name : Option Name
  deriving DecidableEq, Repr

instance : Coe Binary64 Floating := ⟨fun x => ⟨x, none⟩⟩

/- What tells a parser from others that are built alike. -/
inductive Mark where
  | atom (a : Atom)
  | made (name : Name)
  deriving DecidableEq, Repr

mutual

inductive Value where
  | none
  | bool (b : Bool)
  | int (n : Int)
  | float (x : Floating)
  | str (s : Text)
  | list (items : List Value)
  | tuple (items : List Value)
  | builtin (b : Builtin)
  | lambda (name : Name) (params : List String) (body : Expr) (env : List (String × Value))
  | blockFn (name : Name) (params : List String) (body : List Stmt)
      (env : List (String × Value))
  | parser (mark : Mark) (g : Grammar)
  | failure
  | success (value rest : Value)

inductive Grammar where
  | leaf (l : Leaf)
  | ret (v : Value)
  | char (c : Value)
  | string (word : Value)
  | oneOf (members : List Value)
  | noneOf (members : List Value)
  | sat (test : Value)
  | trace (label : Text)
  | bind (p f : Value)
  | map (p f : Value)
  | choice (ps : List Value)
  | option (default p : Value)
  | pair (a b : Value)
  | keepRight (a b : Value)
  | keepLeft (a b : Value)
  | repeated (least : Nat) (collect : Collect) (p : Value)
  | sequenceText (ps : List Value)
  | count (n : Int) (p : Value)
  | between (opening closing p : Value)
  | optional (p : Value)
  | sepBy (p sep : Value)
  | sepBy1 (p sep : Value)
  | chainl1 (p op : Value)
  | shared (cell : Name)
  | block (env : List (String × Value)) (body : List Stmt)
  | raising (fault : Fault)

end

inductive Made where
  | parser (g : Grammar)
  | value (v : Value)

abbrev Env := List (String × Value)

namespace Env

def find? : Env → String → Option Value
  | [], _ => none
  | (y, w) :: env, x => if x == y then some w else find? env x

def set : Env → String → Value → Env
  | [], x, v => [(x, v)]
  | (y, w) :: env, x, v => if x == y then (x, v) :: env else (y, w) :: set env x v

theorem findSet (env : Env) (x y : String) (v : Value) :
    (env.set x v).find? y = if y = x then some v else env.find? y := by
  induction env with
  | nil => simp [set, find?]
  | cons entry env ih =>
    obtain ⟨z, w⟩ := entry
    by_cases hz : x = z
    · subst hz
      by_cases hy : y = x
      · subst hy; simp [set, find?]
      · simp [set, find?, hy]
    · by_cases hy : y = z
      · subst hy; simp [set, find?, hz, Ne.symm hz]
      · simp [set, find?, hz, hy, ih]

def bindAll (env : Env) (named : Env) :
    List String → List Value → Except String Env
  | [], _ => .ok env
  | x :: params, v :: args => bindAll (env.set x v) named params args
  | x :: params, [] =>
    match find? named x with
    | some v => bindAll (env.set x v) named params []
    | none => .error x

end Env

namespace Value

def kind : Value → Kind
  | none => .none
  | bool _ => .bool
  | int _ => .int
  | float _ => .float
  | str _ => .str
  | list _ => .list
  | tuple _ => .tuple
  | builtin _ | lambda .. | blockFn .. => .function
  | parser .. => .parser
  | failure => .failure
  | success .. => .success

def truth : Value → Bool
  | none => false
  | bool b => b
  | int n => n != 0
  | float x => !x.isZero
  | str s => !s.isEmpty
  | list vs => !vs.isEmpty
  | tuple vs => !vs.isEmpty
  | failure => false
  | _ => true

def isTrue : Value → Bool
  | bool b => b
  | _ => false

def integer? : Value → Option Int
  | bool b => some (if b then 1 else 0)
  | int n => some n
  | _ => Option.none

def isCallable : Value → Bool
  | builtin _ | lambda .. | blockFn .. | parser .. => true
  | _ => false

def elements : Value → Except Fault (List Value)
  | str s => .ok (s.map fun c => str [c])
  | list vs | tuple vs => .ok vs
  | success v rest => .ok [v, rest]
  | v => .error (.notIterable v.kind)

def parts (v : Value) : Except Fault (Value × Value) :=
  match v.elements with
  | .ok [a, b] => .ok (a, b)
  | .ok vs => .error (.notPair v.kind (some vs.length))
  | .error _ => .error (.notPair v.kind Option.none)

def characters (vs : List Value) : List Char :=
  vs.filterMap fun
    | str [c] => some c
    | _ => Option.none

mutual

def unhashable? : Value → Option Kind
  | list _ => some .list
  | tuple vs => firstUnhashable? vs
  | success v rest => v.unhashable?.or rest.unhashable?
  | _ => Option.none

def firstUnhashable? : List Value → Option Kind
  | [] => Option.none
  | v :: vs => v.unhashable?.or (firstUnhashable? vs)

end

def hashed (v : Value) : Except Fault Value :=
  match v.unhashable? with
  | some kind => .error (.unhashable kind)
  | Option.none => .ok v

def ofOutcome : Outcome Value Value → Value
  | .failure => failure
  | .success v rest => success v rest

/- A value taken for an outcome of which a part is wanted. What counts as false is a failure;
any other value that is no outcome lacks the part. -/
def outcome (part : String) : Value → Except Fault (Outcome Value Value)
  | success v rest => .ok (.success v rest)
  | v => if v.truth then .error (.lacks v.kind part) else .ok .failure

def outcomeByParts (v : Value) : Except Fault (Outcome Value Value) :=
  if v.truth then v.parts.map fun (a, rest) => .success a rest else .ok .failure

end Value
end ParseKit.Script
