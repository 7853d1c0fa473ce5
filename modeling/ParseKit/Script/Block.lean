import ParseKit.Script.Evaluation
/-!
Blocks of statements, run as a machine that pauses at each parser it yields. The parsers
are applied from outside, each to what the one before left, and the machine goes on with
the value. Its state is the bindings and a stack of what is still to do; the open cleanups
stand on that stack, so that every way out finds them there, innermost first.
-/
namespace ParseKit.Script

inductive Frame where
  | statements (body : List Stmt)
  | loop (test : Expr) (body : List Stmt)
  | forEach (x : String) (items : List Value) (body : List Stmt)
  | cleanup (steps : List Cleanup)

structure Position where
  env : Env
  stack : List Frame

inductive Pause where
  | yielded (v : Value) (into : Option String) (position : Position)
  | returned (v : Value)

inductive Progress where
  | paused (p : Pause)
  | going (env : Env) (stack : List Frame)

section
variable (eval : Env → Expr → Run Value)

def runCleanup (env : Env) : List Cleanup → Run Unit
  | [] => pure ()
  | .log e :: steps => do
    Run.note (← eval env e)
    runCleanup env steps
  | .raise e kind :: _ => do
    let message ← eval env e
    Eff.raise (.raised kind message.plain)

/-- Leaves everything on the stack, innermost first, with a fault or without. The fault
raised last is the one that remains. -/
def leave (env : Env) : List Frame → Option Fault → Run (Option Fault)
  | [], pending => pure pending
  | .cleanup steps :: stack, pending => do
    match ← (runCleanup eval env steps).attempt with
    | .ok () => leave env stack pending
    | .error fault => leave env stack (some fault)
  | _ :: stack, pending => leave env stack pending

def leaveRaising {α : Type} (position : Position) (fault : Fault) : Run α := do
  let last ← leave eval position.env position.stack (some fault)
  Eff.raise (last.getD fault)

def leaveThen {α : Type} (position : Position) (next : Run α) : Run α := do
  match ← leave eval position.env position.stack none with
  | some fault => Eff.raise fault
  | none => next

def inBlock {α : Type} (position : Position) (x : Run α) : Run α := do
  match ← x.attempt with
  | .ok v => pure v
  | .error fault => leaveRaising eval position fault

def progress : Env → List Frame → Run Progress
  | _, [] => pure (.paused (.returned .none))
  | env, .statements [] :: stack => pure (.going env stack)
  | env, .statements (s :: body) :: stack =>
    let after := Frame.statements body :: stack
    let here : Position := ⟨env, after⟩
    match s with
    | .yield parser into => do
      let v ← inBlock eval here (eval env parser)
      pure (.paused (.yielded v into here))
    | .assign x value => do
      let v ← inBlock eval here (eval env value)
      pure (.going (env.set x v) after)
    | .ret value => do
      let v ← inBlock eval here (eval env value)
      leaveThen eval here (pure (.paused (.returned v)))
    | .log value => do
      let v ← inBlock eval here (eval env value)
      Run.note v
      pure (.going env after)
    | .raise message kind => do
      let v ← inBlock eval here (eval env message)
      leaveRaising eval here (.raised kind v.plain)
    | .cond test yes no => do
      let v ← inBlock eval here (eval env test)
      pure (.going env (.statements (if v.isTrue then yes else no) :: after))
    | .loop test body => pure (.going env (.loop test body :: after))
    | .forEach x items body => do
      let vs ← inBlock eval here do Eff.ofExcept (← eval env items).elements
      pure (.going env (.forEach x vs body :: after))
    | .protect body steps => pure (.going env (.statements body :: .cleanup steps :: after))
  | env, .loop test body :: stack => do
    let v ← inBlock eval ⟨env, stack⟩ (eval env test)
    if v.isTrue then pure (.going env (.statements body :: .loop test body :: stack))
    else pure (.going env stack)
  | env, .forEach _ [] _ :: stack => pure (.going env stack)
  | env, .forEach x (v :: items) body :: stack =>
    pure (.going (env.set x v) (.statements body :: .forEach x items body :: stack))
  | env, .cleanup steps :: stack => do
    inBlock eval ⟨env, stack⟩ (runCleanup eval env steps)
    pure (.going env stack)

def advance : (limit : Nat) → Env → List Frame → Run Pause
  | 0, _, _ => Eff.exhausted
  | limit + 1, env, stack => do
    match ← progress eval env stack with
    | .paused p => pure p
    | .going env stack => advance limit env stack

def Env.receive (env : Env) (into : Option String) (v : Value) : Env :=
  match into with
  | some x => env.set x v
  | none => env

def fromGenerator {ω α : Type} (x : Eff ω α) : Eff ω α := do
  match ← x.attempt with
  | .ok v => pure v
  | .error fault => Eff.raise fault.leaving

variable {σ : Type} (apply : Value → Parser σ Store Value)

/- Goes on from a pause: applies what is yielded and sends its value back, for which the block
is run `again`. A parser that fails and a value that cannot be applied close the block. -/
def resume (again : Env → List Frame → σ → Run (Outcome σ Value)) (input : σ) :
    Pause → Run (Outcome σ Value)
  | .returned v => pure (.success v input)
  | .yielded v into position =>
    if v.isCallable then do
      match ← apply v input with
      | .failure => fromGenerator (leaveThen eval position (pure .failure))
      | .success v rest => again (position.env.receive into v) position.stack rest
    else fromGenerator (leaveThen eval position (Eff.raise (.notParser v.display)))

def drive : (limit : Nat) → Env → List Frame → σ → Run (Outcome σ Value)
  | 0, _, _, _ => Eff.exhausted
  | limit + 1, env, stack, input => do
    resume eval apply (drive limit) input (← fromGenerator (advance eval limit env stack))

def runBlock (limit : Nat) (env : Env) (body : List Stmt) : Parser σ Store Value :=
  drive eval apply limit env [.statements body]

end

end ParseKit.Script
