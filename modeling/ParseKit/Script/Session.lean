import ParseKit.Script.Application
/-!
Programs and what is asked of them. The definitions of a program are shared parsers that
may refer to each other and to its bindings, which are evaluated once and in order; one
that is applied by a binding is built with the names bound until then. A session applies
parsers to texts one after another and keeps the cells, but each step answers with events of
its own, and gives names as if it were the only one. All evaluation is within a given limit; a limit
that is too low shows as an exhausted answer and never as another one.
-/
namespace ParseKit.Script

structure Program where
  definitions : List (String × Expr)
  bindings : List (String × Expr)

structure Answer (α : Type) where
  exit : Exit α
  events : List Event

def Run.answerFrom {α : Type} (x : Run α) (store : Store) : Answer α × Store :=
  let (exit, after) := x ⟨store.cells, #[], store.name⟩
  (⟨exit, after.events.toList⟩, after)

def Run.answer {α : Type} (x : Run α) : Answer α := (Run.answerFrom x Store.empty).1

/- A value that came back from a parser, if it has what an answer shows: only a success has
a value and a rest, and what counts as false needs none. -/
def checked (v : Value) : Run Value := do
  let _ ← Eff.ofExcept (v.outcome "value")
  pure v

instance : Shown Value where
  isEnd v := !v.truth
  plain := Value.plain
  quoted := Value.display

def wholeBy (apply : Applier) (p : Value) (source : Text) :
    Value → Run (Except (Refusal Value) Value) :=
  Parser.wholeInput (readRest apply p) source

def whole (limit : Nat) : Value → Text → Value → Run (Except (Refusal Value) Value) :=
  wholeBy (apply limit)

structure Returned where
  value : Value
  parts : Option (Value × Value)

def Returned.ofValue (v : Value) : Run Returned := do
  match ← Eff.ofExcept v.outcomeByParts with
  | .failure => pure ⟨v, none⟩
  | .success a rest => pure ⟨v, some (a, rest)⟩

namespace Program

def shareAll : List (String × Expr) → Run Env
  | [] => pure []
  | (x, e) :: more => do
    let p ← Run.make (.parser (.shared (← Run.share none e [])))
    let env ← shareAll more
    pure (env.set x p)

def cellsOf (env : Env) : List Name :=
  env.filterMap fun
    | (_, .parser _ (.shared id)) => some id
    | _ => none

def link (definitions : List Name) (env : Env) : Store → Store
  | ⟨cells, events, name⟩ =>
    let linked := cells.toList.map fun c =>
      if definitions.contains c.name then { c with env := env } else c
    ⟨linked.toArray, events, name⟩

/- Binds names in order. A binding may apply a definition, so that each time the definitions
are linked to what is bound so far. -/
def bindEachBy (call : Caller) (definitions : List Name) (env : Env) :
    List (String × Expr) → Run Env
  | [] => do
    Eff.modify (link definitions env)
    pure env
  | (x, e) :: more => do
    Eff.modify (link definitions env)
    let v ← evalWith call env e
    bindEachBy call definitions (env.set x v) more

def prepareBy (call : Caller) (p : Program) : Run Env := do
  let shared ← shareAll p.definitions
  bindEachBy call (cellsOf shared) shared p.bindings

section
variable (limit : Nat)

def prepare (p : Program) : Run Env := p.prepareBy (call limit)

def applyExpr (env : Env) (e : Expr) (x : Value) : Run Value := do
  apply limit (← eval limit env e) x

def parse (p : Program) (e : Expr) (text : Text) : Answer Value :=
  Run.answer do
    let env ← p.prepare limit
    checked (← applyExpr limit env e (.str text))

def parseWhole (p : Program) (e : Expr) (source text : Text) :
    Answer (Except (Refusal Value) Value) :=
  Run.answer do
    let env ← p.prepare limit
    whole limit (← eval limit env e) source (.str text)

def parseBoth (p : Program) (a b : Expr) (text : Text) : Answer (Returned × Returned) :=
  Run.answer do
    let env ← p.prepare limit
    let first ← applyExpr limit env a (.str text)
    let second ← applyExpr limit env b (.str text)
    pure (← Returned.ofValue first, ← Returned.ofValue second)

def members (p : Program) (k : CharClass) (es : List Expr) : Answer (List Bool) :=
  Run.answer do
    let env ← p.prepare limit
    let vs ← es.mapM (eval limit env)
    pure (vs.map (·.isIn k))

end

end Program

structure Step where
  parser : Expr
  text : Option Text
  whole : Option Text

inductive StepResult where
  | front (outcome : Value)
  | whole (result : Except (Refusal Value) Value)

def Step.input (step : Step) (left : Text) : Text := step.text.getD left

def Step.run (call : Caller) (env : Env) (step : Step) (text : Text) : Run StepResult := do
  let p ← evalWith call env step.parser
  match step.whole with
  | none => return .front (← checked (← applyBy call p (.str text)))
  | some source => return .whole (← wholeBy (applyBy call) p source (.str text))

def leftAfter (before : Text) : Exit StepResult → Text
  | .done (.front (.success _ (.str rest))) => rest
  | _ => before

/- Where a step begins. What the steps before it have made is not there any more, save what
cells hold, which has names of its own. -/
def Store.atStep (store : Store) : Store := store.naming (.outer .stepping 0 0)

def sessionFrom (call : Caller) (env : Env) (store : Store) (left : Text) :
    List Step → List (Answer StepResult)
  | [] => []
  | step :: more =>
    let (answer, store) := Run.answerFrom (step.run call env (step.input left)) store.atStep
    answer :: sessionFrom call env store (leftAfter left answer.exit) more

/- The answers of all steps, in which calls are made by `call`. A program whose bindings cannot
be evaluated answers each step with that fault. -/
def Program.sessionBy (call : Caller) (limit : Nat) (p : Program) (steps : List Step) :
    List (Answer StepResult) :=
  match p.prepare limit Store.empty with
  | (.done env, store) => sessionFrom call env store [] steps
  | (.raised f, _) => steps.map fun _ => ⟨.raised f, []⟩
  | (.exhausted, _) => steps.map fun _ => ⟨.exhausted, []⟩

def Program.session (limit : Nat) (p : Program) (steps : List Step) :
    List (Answer StepResult) := p.sessionBy (call limit) limit steps

def ampleLimit : Nat := 1000000000000

end ParseKit.Script
