import ParseKit.Proofs.Approximation
import ParseKit.Script.Application

/-! Blocks read as nested text, without a machine: a statement is run where it stands, and a
protected body is followed by its cleanup whichever way it was left. Each run says which
protected bodies were entered and which cleanups were done, in order. Main statement: these
marks are nested, so that every entry has its one cleanup, innermost first. -/
namespace ParseKit.Script
open Eff (Below)

inductive Bracket where
  | opened (steps : List Cleanup)
  | closed (steps : List Cleanup) (fault : Option Fault)

inductive Nested : List Bracket → Prop where
  | nil : Nested []
  | append {a b} (first : Nested a) (second : Nested b) : Nested (a ++ b)
  | around {a} (steps fault) (inner : Nested a) :
      Nested (.opened steps :: a ++ [.closed steps fault])

def lastFault : List Bracket → Option Fault
  | [] => none
  | .opened _ :: marks => lastFault marks
  | .closed _ fault :: marks => (lastFault marks).or fault

theorem lastFaultAppend (a b : List Bracket) :
    lastFault (a ++ b) = (lastFault b).or (lastFault a) := by
  induction a with
  | nil => exact (Option.or_none).symm
  | cons mark a ih =>
    cases mark with
    | opened steps => exact ih
    | closed steps fault =>
      change (lastFault (a ++ b)).or fault = (lastFault b).or ((lastFault a).or fault)
      rw [ih, Option.or_assoc]

inductive Ending where
  | through
  | returned (v : Value)
  | raised (fault : Fault)
  | broken (fault : Fault)
  | mismatch
  | misfit (v : Value)

def Ending.isThrough : Ending → Bool
  | through => true
  | _ => false

def Ending.answer {σ : Type} : Ending → σ → Run (Outcome σ Value)
  | through, x => pure (.success .none x)
  | returned v, x => pure (.success v x)
  | raised fault, _ => Eff.raise fault.leaving
  | broken fault, _ => Eff.raise fault
  | mismatch, _ => pure .failure
  | misfit v, _ => Eff.raise (.notParser v.display)

structure Reached (σ : Type) where
  way : Ending
  env : Env
  input : σ
  marks : List Bracket

def Reached.ending {σ : Type} (r : Reached σ) : Ending :=
  ((lastFault r.marks).map .raised).getD r.way

section
variable {σ : Type}

def beginning {α : Type} (env : Env) (x : σ) (first : Run α) (next : α → Run (Reached σ)) :
    Run (Reached σ) := do
  match ← first.attempt with
  | .ok a => next a
  | .error fault => pure ⟨.raised fault, env, x, []⟩

def Reached.goOn (r : Reached σ) (next : Env → σ → Run (Reached σ)) : Run (Reached σ) :=
  match r.ending with
  | .through => do
    let after ← next r.env r.input
    pure { after with marks := r.marks ++ after.marks }
  | _ => pure r

variable (eval : Env → Expr → Run Value) (apply : Value → Parser σ Store Value)

def Reached.cleanUp (steps : List Cleanup) (r : Reached σ) : Run (Reached σ) := do
  let fault := match ← (runCleanup eval r.env steps).attempt with
    | .ok () => none
    | .error fault => some fault
  pure { r with marks := .opened steps :: r.marks ++ [.closed steps fault] }

def yieldRun (v : Value) (into : Option String) (env : Env) (x : σ) : Run (Reached σ) :=
  if v.isCallable then
    do match ← (apply v x).attempt with
      | .ok .failure => pure ⟨.mismatch, env, x, []⟩
      | .ok (.success a rest) => pure ⟨.through, env.receive into a, rest, []⟩
      | .error fault => pure ⟨.broken fault, env, x, []⟩
  else pure ⟨.misfit v, env, x, []⟩

def loopRun (test : Expr) (body : Env → σ → Run (Reached σ)) : (limit : Nat) →
    Env → σ → Run (Reached σ)
  | 0, _, _ => Eff.exhausted
  | limit + 1, env, x =>
    beginning env x (eval env test) fun v =>
      if v.isTrue then body env x >>= fun r => r.goOn (loopRun test body limit)
      else pure ⟨.through, env, x, []⟩

def eachRun (y : String) (body : Env → σ → Run (Reached σ)) : List Value →
    Env → σ → Run (Reached σ)
  | [], env, x => pure ⟨.through, env, x, []⟩
  | v :: items, env, x => body (env.set y v) x >>= fun r => r.goOn (eachRun y body items)

variable (limit : Nat)

mutual

def Stmt.run : Stmt → Env → σ → Run (Reached σ)
  | .yield parser into, env, x =>
    beginning env x (eval env parser) fun v => yieldRun apply v into env x
  | .assign y value, env, x =>
    beginning env x (eval env value) fun v => pure ⟨.through, env.set y v, x, []⟩
  | .ret value, env, x =>
    beginning env x (eval env value) fun v => pure ⟨.returned v, env, x, []⟩
  | .log value, env, x =>
    beginning env x (eval env value) fun v => do
      Run.note v
      pure ⟨.through, env, x, []⟩
  | .raise message kind, env, x =>
    beginning env x (eval env message) fun v =>
      pure ⟨.raised (.raised kind v.plain), env, x, []⟩
  | .cond test yes no, env, x =>
    beginning env x (eval env test) fun v => if v.isTrue then runAll yes env x else runAll no env x
  | .loop test body, env, x => loopRun eval test (runAll body) limit env x
  | .forEach y items body, env, x =>
    beginning env x (do Eff.ofExcept (← eval env items).elements) fun vs =>
      eachRun y (runAll body) vs env x
  | .protect body steps, env, x => runAll body env x >>= fun r => r.cleanUp eval steps

def runAll : List Stmt → Env → σ → Run (Reached σ)
  | [], env, x => pure ⟨.through, env, x, []⟩
  | s :: body, env, x => s.run env x >>= fun r => r.goOn (runAll body)

end
end

section
variable {σ : Type} {eval : Env → Expr → Run Value} {apply : Value → Parser σ Store Value}

def RunsNested (next : Env → σ → Run (Reached σ)) : Prop :=
  ∀ env x, (next env x).Ensures fun r => Nested r.marks

theorem beginningNested {α : Type} {env : Env} {x : σ} {first : Run α}
    {next : α → Run (Reached σ)} (tail : ∀ a, (next a).Ensures fun r => Nested r.marks) :
    (beginning env x first next).Ensures fun r => Nested r.marks :=
  (Eff.Ensures.attempt first).bind fun
    | .ok a, _ => tail a
    | .error _, _ => .done .nil

theorem Reached.goOnNested {r : Reached σ} (first : Nested r.marks)
    {next : Env → σ → Run (Reached σ)} (tail : RunsNested next) :
    (r.goOn next).Ensures fun r => Nested r.marks := by
  unfold Reached.goOn
  cases r.ending with
  | through => exact (tail r.env r.input).bind fun after second => .done (.append first second)
  | _ => exact .done first

theorem yieldRunNested (v : Value) (into : Option String) :
    RunsNested (yieldRun apply v into) := by
  intro env x
  unfold yieldRun
  split
  · exact (Eff.Ensures.attempt _).bind fun
      | .ok .failure, _ => .done .nil
      | .ok (.success _ _), _ => .done .nil
      | .error _, _ => .done .nil
  · exact .done .nil

theorem loopRunNested (test : Expr) {body : Env → σ → Run (Reached σ)} (inner : RunsNested body)
    (limit : Nat) : RunsNested (loopRun eval test body limit) := by
  induction limit with
  | zero => exact fun _ _ => .exhausted
  | succ limit ih =>
    refine fun env x => beginningNested fun v => ?_
    split
    · exact (inner env x).bind fun r first => r.goOnNested first ih
    · exact .done .nil

theorem eachRunNested (y : String) {body : Env → σ → Run (Reached σ)} (inner : RunsNested body)
    (items : List Value) : RunsNested (eachRun y body items) := by
  induction items with
  | nil => exact fun _ _ => .done .nil
  | cons v items ih =>
    exact fun env x => (inner (env.set y v) x).bind fun r first => r.goOnNested first ih

mutual

theorem runNested {limit : Nat} : (s : Stmt) → RunsNested (s.run eval apply limit)
  | .yield _ into => fun env x => beginningNested fun v => yieldRunNested v into env x
  | .assign _ _ | .ret _ | .raise .. => fun _ _ => beginningNested fun _ => .done .nil
  | .log _ => fun _ _ => beginningNested fun _ =>
      (Eff.Ensures.modify _).bind fun _ _ => .done .nil
  | .cond _ yes no => fun env x => beginningNested fun v => by
    split
    · exact runAllNested yes env x
    · exact runAllNested no env x
  | .loop test body => loopRunNested test (runAllNested body) limit
  | .forEach y _ body => fun env x => beginningNested fun vs =>
      eachRunNested y (runAllNested body) vs env x
  | .protect body steps => fun env x => (runAllNested body env x).bind fun _ inner =>
      (Eff.Ensures.attempt _).bind fun _ _ => .done (.around steps _ inner)

theorem runAllNested {limit : Nat} : (body : List Stmt) → RunsNested (runAll eval apply limit body)
  | [] => fun _ _ => .done .nil
  | s :: body => fun env x => (runNested s env x).bind fun r first =>
      r.goOnNested first (runAllNested body)

end

def RunsBelow (f g : Env → σ → Run (Reached σ)) : Prop := ∀ env x, Below (f env x) (g env x)

theorem beginningBelow {α : Type} {env : Env} {x : σ} {first : Run α}
    {f g : α → Run (Reached σ)} (tail : ∀ a, Below (f a) (g a)) :
    Below (beginning env x first f) (beginning env x first g) :=
  (Below.refl first.attempt).bind fun
    | .ok a => tail a
    | .error _ => .refl _

theorem goOnBelow {f g : Env → σ → Run (Reached σ)} (tail : RunsBelow f g) (r : Reached σ) :
    Below (r.goOn f) (r.goOn g) := by
  unfold Reached.goOn
  cases r.ending with
  | through => exact (tail r.env r.input).bind fun _ => .refl _
  | _ => exact .refl _

theorem loopRunBelow (test : Expr) {f g : Env → σ → Run (Reached σ)} (inner : RunsBelow f g)
    {m n : Nat} (le : m ≤ n) : RunsBelow (loopRun eval test f m) (loopRun eval test g n) := by
  induction m generalizing n with
  | zero => exact fun _ _ => .exhausted _
  | succ m ih =>
    cases n with
    | zero => omega
    | succ n =>
      have le : m ≤ n := by omega
      intro env x
      refine beginningBelow fun v => ?_
      split
      · exact (inner env x).bind fun r => goOnBelow (ih le) r
      · exact .refl _

theorem eachRunBelow (y : String) {f g : Env → σ → Run (Reached σ)} (inner : RunsBelow f g)
    (items : List Value) : RunsBelow (eachRun y f items) (eachRun y g items) := by
  induction items with
  | nil => exact fun _ _ => .refl _
  | cons v items ih => exact fun env x => (inner (env.set y v) x).bind fun r => goOnBelow ih r

mutual

theorem runBelow {m n : Nat} (le : m ≤ n) :
    (s : Stmt) → RunsBelow (s.run eval apply m) (s.run eval apply n)
  | .yield .. | .assign .. | .ret _ | .log _ | .raise .. => fun _ _ => .refl _
  | .cond _ yes no => fun env x => beginningBelow fun v => by
    split
    · exact runAllBelow le yes env x
    · exact runAllBelow le no env x
  | .loop test body => loopRunBelow test (runAllBelow le body) le
  | .forEach y _ body => fun env x => beginningBelow fun vs =>
      eachRunBelow y (runAllBelow le body) vs env x
  | .protect body _ => fun env x => (runAllBelow le body env x).bind fun _ => .refl _

theorem runAllBelow {m n : Nat} (le : m ≤ n) :
    (body : List Stmt) → RunsBelow (runAll eval apply m body) (runAll eval apply n body)
  | [] => fun _ _ => .refl _
  | s :: body => fun env x => (runBelow le s env x).bind fun r => goOnBelow (runAllBelow le body) r

end
end
end ParseKit.Script
