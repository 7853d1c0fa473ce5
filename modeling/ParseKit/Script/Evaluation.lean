import ParseKit.Script.Build
import ParseKit.Script.Calculation
/-!
The value of an expression. Operands are evaluated first and from left to right. What it
means to call a value is a parameter here; all other recursion is on the expression itself.
-/
namespace ParseKit.Script

abbrev Caller : Type := Value → List Value → List (String × Value) → Run Value

def Literal.eval : Literal → Run Value
  | none => pure .none
  | bool b => pure (.bool b)
  | int n => pure (.int n)
  | float x => Run.number x
  | str s => pure (.str s)

mutual

def evalWith (call : Caller) (env : Env) : Expr → Run Value
  | .lit l => l.eval
  | .list items => return .list (← evalAllWith call env items)
  | .tuple items => return .tuple (← evalAllWith call env items)
  | .var x =>
    match env.find? x with
    | some v => pure v
    | none => Eff.raise (.unbound x)
  | .builtin b => pure (.builtin b)
  | .call f args named => do
    let f ← evalWith call env f
    let args ← evalAllWith call env args
    let named ← evalNamedWith call env named
    call f args named
  | .lambda params body => return .lambda (← Run.name) params body env
  | .cond test yes no => do
    let test ← evalWith call env test
    if test.isTrue then evalWith call env yes else evalWith call env no
  | .blockFn params body => return .blockFn (← Run.name) params body env
  | .atom a => pure a.value
  | .unary op a => do
    let a ← evalWith call env a
    Run.make (← Eff.ofExcept (op.build a))
  | .binary op a b => do
    let a ← evalWith call env a
    let b ← evalWith call env b
    Run.make (← Eff.ofExcept (op.build a b))
  | .between opening closing inner => do
    let opening ← evalWith call env opening
    let closing ← evalWith call env closing
    let inner ← evalWith call env inner
    Run.make (← Eff.ofExcept (buildBetween opening closing inner))
  | .lazy tag body => do
    let id ← Run.share tag body env
    Run.make (.parser (.shared id))
  | .run body => Run.make (.parser (.block env body))

def evalAllWith (call : Caller) (env : Env) : List Expr → Run (List Value)
  | [] => pure []
  | e :: es => do
    let v ← evalWith call env e
    let vs ← evalAllWith call env es
    pure (v :: vs)

def evalNamedWith (call : Caller) (env : Env) :
    List (String × Expr) → Run (List (String × Value))
  | [] => pure []
  | (x, e) :: es => do
    let v ← evalWith call env e
    let vs ← evalNamedWith call env es
    pure ((x, v) :: vs)

end

end ParseKit.Script
