import Mathlib.Logic.Basic
import ParseKit.Proofs.Approximation
import ParseKit.Proofs.Watching

/-! Marked code. Trace points with some labels are marks of the expressions behind them, and code is
read either without them or with trace points of other labels in their place. Evaluation of marked
code is wary: it is cut short where a mark stands before what is no parser, where a parser is applied
to what is no text, and where lists are compared that both have things in them which equal only
themselves. -/
namespace ParseKit.Script
open Eff (Below)

structure Marking where
  marks : Text → Bool
  label : Option (Text → Text)

namespace Marking
variable (M : Marking)

def clear : Marking := ⟨fun _ => false, none⟩

def mark? : Binary → Expr → Option Text
  | .keepRight, .unary .trace (.lit (.str label)) => if M.marks label then some label else none
  | _, _ => none

@[simp] theorem markClear (op : Binary) (a : Expr) : clear.mark? op a = none := by
  unfold mark?
  split
  · rfl
  · rfl

end Marking

def Expr.traced (label : Text) (e : Expr) : Expr :=
  .binary .keepRight (.unary .trace (.lit (.str label))) e

mutual

def Expr.meant (M : Marking) : Expr → Expr
  | .lit l => .lit l
  | .list es => .list (meantAll M es)
  | .tuple es => .tuple (meantAll M es)
  | .var x => .var x
  | .builtin b => .builtin b
  | .call f args named => .call (f.meant M) (meantAll M args) (meantNamed M named)
  | .lambda params body => .lambda params (body.meant M)
  | .cond test yes no => .cond (test.meant M) (yes.meant M) (no.meant M)
  | .blockFn params body => .blockFn params (meantBody M body)
  | .atom a => .atom a
  | .unary op a => .unary op (a.meant M)
  | .binary op a b =>
    match M.mark? op a, M.label with
    | none, _ => .binary op (a.meant M) (b.meant M)
    | some _, none => b.meant M
    | some old, some label => (b.meant M).traced (label old)
  | .between opening closing inner =>
    .between (opening.meant M) (closing.meant M) (inner.meant M)
  | .lazy tag body => .lazy tag (body.meant M)
  | .run body => .run (meantBody M body)

def meantAll (M : Marking) : List Expr → List Expr
  | [] => []
  | e :: es => e.meant M :: meantAll M es

def meantNamed (M : Marking) : List (String × Expr) → List (String × Expr)
  | [] => []
  | (x, e) :: es => (x, e.meant M) :: meantNamed M es

def Stmt.meant (M : Marking) : Stmt → Stmt
  | .yield parser into => .yield (parser.meant M) into
  | .assign x value => .assign x (value.meant M)
  | .ret value => .ret (value.meant M)
  | .log value => .log (value.meant M)
  | .raise message kind => .raise (message.meant M) kind
  | .cond test yes no => .cond (test.meant M) (meantBody M yes) (meantBody M no)
  | .loop test body => .loop (test.meant M) (meantBody M body)
  | .forEach x items body => .forEach x (items.meant M) (meantBody M body)
  | .protect body cleanup => .protect (meantBody M body) (meantCleanup M cleanup)

def meantBody (M : Marking) : List Stmt → List Stmt
  | [] => []
  | s :: body => s.meant M :: meantBody M body

def meantCleanup (M : Marking) : List Cleanup → List Cleanup
  | [] => []
  | .log value :: steps => .log (value.meant M) :: meantCleanup M steps
  | .raise message kind :: steps => .raise (message.meant M) kind :: meantCleanup M steps

end

mutual

theorem Expr.meantClear : (e : Expr) → e.meant .clear = e
  | .lit _ | .var _ | .builtin _ | .atom _ => rfl
  | .list es => congrArg Expr.list (meantAllClear es)
  | .tuple es => congrArg Expr.tuple (meantAllClear es)
  | .call f args named => by
    simp only [Expr.meant, f.meantClear, meantAllClear args, meantNamedClear named]
  | .lambda params body => congrArg (Expr.lambda params) body.meantClear
  | .cond test yes no => by
    simp only [Expr.meant, test.meantClear, yes.meantClear, no.meantClear]
  | .blockFn params body => congrArg (Expr.blockFn params) (meantBodyClear body)
  | .unary op a => congrArg (Expr.unary op) a.meantClear
  | .binary op a b => by
    simp only [Expr.meant, Marking.markClear, a.meantClear, b.meantClear]
  | .between opening closing inner => by
    simp only [Expr.meant, opening.meantClear, closing.meantClear, inner.meantClear]
  | .lazy tag body => congrArg (Expr.lazy tag) body.meantClear
  | .run body => congrArg Expr.run (meantBodyClear body)

theorem meantAllClear : (es : List Expr) → meantAll .clear es = es
  | [] => rfl
  | e :: es => congrArg₂ List.cons e.meantClear (meantAllClear es)

theorem meantNamedClear : (es : List (String × Expr)) → meantNamed .clear es = es
  | [] => rfl
  | (x, e) :: es => by simp only [meantNamed, e.meantClear, meantNamedClear es]

theorem Stmt.meantClear : (s : Stmt) → s.meant .clear = s
  | .yield parser into => by simp only [Stmt.meant, parser.meantClear]
  | .assign x value => congrArg (Stmt.assign x) value.meantClear
  | .ret value => congrArg Stmt.ret value.meantClear
  | .log value => congrArg Stmt.log value.meantClear
  | .raise message kind => congrArg (Stmt.raise · kind) message.meantClear
  | .cond test yes no => by
    simp only [Stmt.meant, test.meantClear, meantBodyClear yes, meantBodyClear no]
  | .loop test body => by simp only [Stmt.meant, test.meantClear, meantBodyClear body]
  | .forEach x items body => by simp only [Stmt.meant, items.meantClear, meantBodyClear body]
  | .protect body cleanup => by
    simp only [Stmt.meant, meantBodyClear body, meantCleanupClear cleanup]

theorem meantBodyClear : (body : List Stmt) → meantBody .clear body = body
  | [] => rfl
  | s :: body => congrArg₂ List.cons s.meantClear (meantBodyClear body)

theorem meantCleanupClear : (steps : List Cleanup) → meantCleanup .clear steps = steps
  | [] => rfl
  | .log value :: steps => by
    simp only [meantCleanup, value.meantClear, meantCleanupClear steps]
  | .raise message kind :: steps => by
    simp only [meantCleanup, message.meantClear, meantCleanupClear steps]

end

namespace Value

mutual

/- Whether something in a value equals only itself. -/
def singular : Value → Bool
  | float x => x.name.isSome
  | lambda .. | blockFn .. | parser .. => true
  | list vs | tuple vs => anySingular vs
  | success v rest => v.singular || rest.singular
  | _ => false

def anySingular : List Value → Bool
  | [] => false
  | v :: vs => v.singular || anySingular vs

end

def onlyParser : Value → Run Value
  | parser mark g => pure (parser mark g)
  | _ => Eff.exhausted

def mixes : Value → Value → Bool
  | list vs, list ws | tuple vs, tuple ws => anySingular vs && anySingular ws
  | _, _ => false

end Value

def Binary.mixes : Binary → Value → Value → Bool
  | .keepRight, v, w | .keepLeft, v, w => v.mixes w
  | _, _, _ => false

def Marking.place (M : Marking) (old : Text) (x : Run Value) : Run Value :=
  match M.label with
  | none => x
  | some label => do
    let point ← Run.make (.parser (.trace (label old)))
    let v ← x
    Run.make (.parser (.keepRight point v))

mutual

def evalMarked (M : Marking) (call : Caller) (env : Env) : Expr → Run Value
  | .lit l => l.eval
  | .list items => return .list (← evalAllMarked M call env items)
  | .tuple items => return .tuple (← evalAllMarked M call env items)
  | .var x =>
    match env.find? x with
    | some v => pure v
    | none => Eff.raise (.unbound x)
  | .builtin b => pure (.builtin b)
  | .call f args named => do
    let f ← evalMarked M call env f
    let args ← evalAllMarked M call env args
    let named ← evalNamedMarked M call env named
    call f args named
  | .lambda params body => return .lambda (← Run.name) params body env
  | .cond test yes no => do
    let test ← evalMarked M call env test
    if test.isTrue then evalMarked M call env yes else evalMarked M call env no
  | .blockFn params body => return .blockFn (← Run.name) params body env
  | .atom a => pure a.value
  | .unary op a => do
    let a ← evalMarked M call env a
    Run.make (← Eff.ofExcept (op.build a))
  | .binary op a b =>
    match M.mark? op a with
    | some old => M.place old do Value.onlyParser (← evalMarked M call env b)
    | none => do
      let v ← evalMarked M call env a
      let w ← evalMarked M call env b
      if op.mixes v w then Eff.exhausted else Run.make (← Eff.ofExcept (op.build v w))
  | .between opening closing inner => do
    let opening ← evalMarked M call env opening
    let closing ← evalMarked M call env closing
    let inner ← evalMarked M call env inner
    Run.make (← Eff.ofExcept (buildBetween opening closing inner))
  | .lazy tag body => do
    let id ← Run.share tag body env
    Run.make (.parser (.shared id))
  | .run body => Run.make (.parser (.block env body))

def evalAllMarked (M : Marking) (call : Caller) (env : Env) : List Expr → Run (List Value)
  | [] => pure []
  | e :: es => do
    let v ← evalMarked M call env e
    let vs ← evalAllMarked M call env es
    pure (v :: vs)

def evalNamedMarked (M : Marking) (call : Caller) (env : Env) :
    List (String × Expr) → Run (List (String × Value))
  | [] => pure []
  | (x, e) :: es => do
    let v ← evalMarked M call env e
    let vs ← evalNamedMarked M call env es
    pure ((x, v) :: vs)

end

section
variable (M : Marking)

def callPlace (call : Caller) (limit : Nat) : Caller
  | .lambda _ params body env, args, named =>
    match Env.bindAll env named params args with
    | .ok env => evalMarked M call env body
    | .error x => Eff.raise (.missingArgument x)
  | f, args, named => callWith call limit f args named

def callFunctionMarked : Nat → Caller
  | 0 => fun _ _ _ => Eff.exhausted
  | limit + 1 => fun
    | .parser .., _, _ => Eff.exhausted
    | f, args, named => callPlace M (callFunctionMarked limit) limit f args named

variable (forcing : Caller → Nat → Name → Run Value)

def Grammar.applyMarked (call : Caller) (limit : Nat) : Grammar → Value → Run Value
  | .shared id, x => do applyBy call (← forcing call limit id) x
  | .block env body, x =>
    give (runBlock (evalMarked M call) (readParts (applyBy call)) limit env body) x
  | g, x => g.applyWith (applyBy call) call limit x

def callMarked : Nat → Caller
  | 0 => fun _ _ _ => Eff.exhausted
  | limit + 1 => fun
    | .parser _ g, args, named => do
      let x ← Eff.ofExcept (soleArgument args named)
      if x.isText then g.applyMarked M forcing (callMarked limit) limit x else Eff.exhausted
    | f, args, named => callPlace M (callMarked limit) limit f args named

end

section
variable {M : Marking} {forcing : Caller → Nat → Name → Run Value}

theorem applyMarkedOther (call : Caller) (limit : Nat) {g : Grammar}
    (unshared : ∀ id, g ≠ .shared id) (unblocked : ∀ env body, g ≠ .block env body) :
    g.applyMarked M forcing call limit = g.applyWith (applyBy call) call limit := by
  cases g with
  | shared id => exact absurd rfl (unshared id)
  | block env body => exact absurd rfl (unblocked env body)
  | _ => rfl

variable {f : Value} (other : ∀ mark g, f ≠ .parser mark g) (limit : Nat) (args : List Value)
  (named : Env)
include other

theorem callFunctionMarkedOther : callFunctionMarked M (limit + 1) f args named =
    callPlace M (callFunctionMarked M limit) limit f args named := by
  cases f with
  | parser mark g => exact absurd rfl (other mark g)
  | _ => rfl

theorem callMarkedOther : callMarked M forcing (limit + 1) f args named =
    callPlace M (callMarked M forcing limit) limit f args named := by
  cases f with
  | parser mark g => exact absurd rfl (other mark g)
  | _ => rfl

end

mutual

theorem evalCheckedBelow {c d : Caller} (calls : CallerBelow c d) (env : Env) :
    (e : Expr) → Below (evalMarked .clear c env e) (evalWith d env e)
  | .lit _ | .var _ | .builtin _ | .lambda .. | .blockFn .. | .atom _ | .lazy .. | .run _ =>
    .refl _
  | .list items => (evalAllCheckedBelow calls env items).bind fun _ => .refl _
  | .tuple items => (evalAllCheckedBelow calls env items).bind fun _ => .refl _
  | .call f args named =>
    (evalCheckedBelow calls env f).bind fun f =>
      (evalAllCheckedBelow calls env args).bind fun args =>
        (evalNamedCheckedBelow calls env named).bind fun named => calls f args named
  | .cond test yes no => (evalCheckedBelow calls env test).bind fun v => by
    cases v.isTrue with
    | true => exact evalCheckedBelow calls env yes
    | false => exact evalCheckedBelow calls env no
  | .unary _ a => (evalCheckedBelow calls env a).bind fun _ => .refl _
  | .binary op a b => by
    simp only [evalMarked, evalWith, Marking.markClear]
    refine (evalCheckedBelow calls env a).bind fun v => ?_
    refine (evalCheckedBelow calls env b).bind fun w => ?_
    split
    · exact .exhausted _
    · exact .refl _
  | .between opening closing inner =>
    (evalCheckedBelow calls env opening).bind fun _ =>
      (evalCheckedBelow calls env closing).bind fun _ =>
        (evalCheckedBelow calls env inner).bind fun _ => .refl _

theorem evalAllCheckedBelow {c d : Caller} (calls : CallerBelow c d) (env : Env) :
    (es : List Expr) → Below (evalAllMarked .clear c env es) (evalAllWith d env es)
  | [] => .refl _
  | e :: es => (evalCheckedBelow calls env e).bind fun _ =>
      (evalAllCheckedBelow calls env es).bind fun _ => .refl _

theorem evalNamedCheckedBelow {c d : Caller} (calls : CallerBelow c d) (env : Env) :
    (es : List (String × Expr)) → Below (evalNamedMarked .clear c env es) (evalNamedWith d env es)
  | [] => .refl _
  | (_, e) :: es => (evalCheckedBelow calls env e).bind fun _ =>
      (evalNamedCheckedBelow calls env es).bind fun _ => .refl _

end

end ParseKit.Script
