import ParseKit.Proofs.Successes
import ParseKit.Proofs.Watching

/-! Blocks that ask for parsers one after another. A block runs to where it pauses, and goes on from
there with the value of what it has yielded. Main statement: a block that yields some parsers in
turn, whatever it is sent, does what applying them one after another does, and stops where one of
them fails. -/
namespace ParseKit.Script
open Eff (Below)

theorem Agree.between {α : Type} {x y : Running α}
    (below : ∀ limit, Below (y.within limit) (x.within (limit + 1)))
    (above : ∀ limit, Below (x.within limit) (y.within limit)) : Agree x y := by
  intro w exit w'
  constructor
  · rintro ⟨ended, limit, run⟩
    exact ⟨ended, limit, (above limit).ends run ended⟩
  · rintro ⟨ended, limit, run⟩
    exact ⟨ended, limit + 1, (below limit).ends run ended⟩

def Running.outside {α : Type} (x : Running α) : Running α :=
  ⟨fun limit => fromGenerator (x.within limit), fun _ _ le => leavingBelow (x.grows _ _ le)⟩

theorem Agree.outsideRet {α : Type} {x : Running α} {a : α} (given : Agree x (.ret a)) :
    Agree x.outside (.ret a) := by
  intro w exit w'
  constructor
  · rintro ⟨ended, limit, run⟩
    rcases leavingEnds run ended with ⟨_, rfl, ran⟩ | ⟨fault, rfl, ran⟩
    · exact (given _ _ _).mp ⟨ended, limit, ran⟩
    · have raised : x.Ends w (.raised fault) w' := ⟨nofun, limit, ran⟩
      obtain ⟨_, _, impossible⟩ := (given _ _ _).mp raised
      cases impossible
  · rintro ⟨ended, _, run⟩
    cases run
    obtain ⟨_, limit, ran⟩ := (given _ _ _).mpr Running.endsRet
    exact ⟨ended, limit, leavingDone ran⟩

namespace Calling
variable (c : Calling)

theorem evaluates {m n : Nat} (le : m ≤ n) :
    EvalBelow (evalWith (c.call m)) (evalWith (c.call n)) := fun env e =>
  evalBelow (c.grows le) env e

theorem readsParts {m n : Nat} (le : m ≤ n) (p : Value) :
    Parser.Below (readParts (applyBy (c.call m)) p) (readParts (applyBy (c.call n)) p) :=
  readByBelow (fun p x => c.grows le p [x] []) _ p

def evaluated (env : Env) (e : Expr) : Running Value :=
  ⟨fun limit => evalWith (c.call limit) env e, fun _ _ le => c.evaluates le env e⟩

def progressed (env : Env) (stack : List Frame) : Running Progress :=
  ⟨fun limit => progress (evalWith (c.call limit)) env stack,
    fun _ _ le => progressBelow (c.evaluates le) env stack⟩

def paused (env : Env) (stack : List Frame) : Running Pause :=
  ⟨fun limit => advance (evalWith (c.call limit)) limit env stack,
    fun _ _ le => advanceBelow (c.evaluates le) le env stack⟩

def driven (env : Env) (stack : List Frame) (x : Value) : Running (Outcome Value Value) :=
  ⟨fun limit =>
      drive (evalWith (c.call limit)) (readParts (applyBy (c.call limit))) limit env stack x,
    fun _ _ le => driveBelow (c.evaluates le) (c.readsParts le) le env stack x⟩

def leaving {α : Type} (position : Position) (next : Running α) : Running α :=
  .outside ⟨fun limit => leaveThen (evalWith (c.call limit)) position (next.within limit),
    fun _ _ le => leaveThenBelow (c.evaluates le) position (next.grows _ _ le)⟩

def resumed (x : Value) : Pause → Running (Outcome Value Value)
  | .returned v => .ret (.success v x)
  | .yielded v into position =>
    if v.isCallable then
      (c.viewed Value.outcomeByParts v x).bind fun
        | .failure => c.leaving position (.ret .failure)
        | .success v rest => c.driven (position.env.receive into v) position.stack rest
    else c.leaving position (.always (Eff.raise (.notParser v.display)))

theorem pausedAgrees (env : Env) (stack : List Frame) :
    Agree (c.paused env stack) ((c.progressed env stack).bind fun
      | .paused p => .ret p
      | .going env stack => c.paused env stack) := by
  refine .between (fun limit => ?_) fun limit => ?_
  · refine (progressBelow (c.evaluates (Nat.le_succ limit)) env stack).bind fun p => ?_
    cases p with
    | paused p => exact .refl _
    | going env stack =>
      exact advanceBelow (c.evaluates (Nat.le_succ limit)) (Nat.le_refl limit) env stack
  · cases limit with
    | zero => exact .exhausted _
    | succ limit =>
      refine (Below.refl _).bind fun p => ?_
      cases p with
      | paused p => exact .refl _
      | going env stack => exact advanceBelow (.refl _) (Nat.le_succ limit) env stack

theorem resumedWithin (limit : Nat) (x : Value) (p : Pause) :
    (c.resumed x p).within limit =
      resume (evalWith (c.call limit)) (readParts (applyBy (c.call limit)))
        (drive (evalWith (c.call limit)) (readParts (applyBy (c.call limit))) limit) x p := by
  cases p with
  | returned v => rfl
  | yielded v into position =>
    simp only [resumed, resume]
    split
    · exact bind_congr fun o => by cases o <;> rfl
    · rfl

theorem drivenAgrees (env : Env) (stack : List Frame) (x : Value) :
    Agree (c.driven env stack x) ((c.paused env stack).outside.bind (c.resumed x)) := by
  have later (m n : Nat) (le : m ≤ n) (p : Pause) := resumeBelow (c.evaluates le) (c.readsParts le)
    (driveBelow (c.evaluates le) (c.readsParts le) (Nat.le_refl m)) x p
  refine .between (fun limit => ?_) fun limit => ?_
  · have le := Nat.le_succ limit
    refine (leavingBelow (advanceBelow (c.evaluates le) (Nat.le_refl limit) env stack)).bind
      fun p => ?_
    rw [resumedWithin]
    exact later limit (limit + 1) le p
  · cases limit with
    | zero => exact .exhausted _
    | succ limit =>
      refine (leavingBelow (advanceBelow (.refl _) (Nat.le_succ limit) env stack)).bind fun p => ?_
      rw [resumedWithin]
      exact resumeBelow (.refl _) (fun _ => .refl _)
        (driveBelow (.refl _) (fun _ => .refl _) (Nat.le_succ limit)) x p

def outcomeOf (y : Running (Outcome Value Value)) : Running Value :=
  y.bind fun o => .ret (.ofOutcome o)

theorem blockAgrees (mark : Mark) (env : Env) (body : List Stmt) (x : Value) :
    Agree (c.called (.parser mark (.block env body)) x)
      (outcomeOf (c.driven env [.statements body] x)) :=
  .later fun limit => c.applies limit mark (.block env body) x

def GivesOnly (fits good : Value → Prop) (p : Value) : Prop :=
  ∀ x, fits x → ∀ limit, ((c.called p x).within limit).Gives fun r =>
    ∃ o : Outcome Value Value, r = .ofOutcome o ∧ ∀ v rest, o = .success v rest → good v ∧ fits rest

theorem givesAny {p : Value} (outcomes : c.GivesOutcomes p) :
    c.GivesOnly (fun _ => True) (fun _ => True) p := fun x _ limit =>
  (outcomes x limit).weaken fun _ outcome => by
    obtain ⟨o, _, rfl, _⟩ := outcomeBack outcome
    exact ⟨o, rfl, fun _ _ _ => ⟨trivial, trivial⟩⟩

def inTurn : (ps : List Value) → (x : Value) → Running (Outcome Value (List Value))
  | [], x => .ret (.success [] x)
  | p :: ps, x => (c.taken p x).bind <| onward fun v rest =>
    (inTurn ps rest).bind <| onward fun vs left => .ret (.success (v :: vs) left)

def inTurnTo (last : List Value → Value) (ps : List Value) (x : Value) : Running Value :=
  outcomeOf ((c.inTurn ps x).bind <| onward fun vs left => .ret (.success (last vs) left))

/-- The block yields these parsers in turn and returns what comes of their values, in whatever way
it has kept those it has seen. In between it does nothing that shows. -/
inductive Asks (good : Value → Prop) (last : List Value → Value) :
    (ps seen : List Value) → Env → List Frame → Prop where
  | returns {seen : List Value} {env : Env} {stack : List Frame}
      (run : Agree (c.paused env stack) (.ret (.returned (last seen)))) :
      Asks good last [] seen env stack
  | yields {p : Value} {ps seen : List Value} {into : Option String} {position : Position}
      {env : Env}
      {stack : List Frame} (run : Agree (c.paused env stack) (.ret (.yielded p into position)))
      (bare : position.stack.all Frame.unprotected = true)
      (others : ∀ v, good v →
        Asks good last ps (seen ++ [v]) (position.env.receive into v) position.stack) :
      Asks good last (p :: ps) seen env stack

section
variable {c} {fits good : Value → Prop} {last : List Value → Value} {ps seen : List Value}
  {env env' : Env}
  {stack stack' : List Frame}

theorem pausedGoing (step : Agree (c.progressed env stack) (.ret (.going env' stack'))) :
    Agree (c.paused env stack) (c.paused env' stack') :=
  (c.pausedAgrees env stack).trans (step.head _)

theorem pausedHere {p : Pause} (step : Agree (c.progressed env stack) (.ret (.paused p))) :
    Agree (c.paused env stack) (.ret p) :=
  (c.pausedAgrees env stack).trans (step.head _)

theorem Asks.going (asks : c.Asks good last ps seen env' stack')
    (step : Agree (c.progressed env stack) (.ret (.going env' stack'))) :
    c.Asks good last ps seen env stack := by
  cases asks with
  | returns run => exact .returns ((pausedGoing step).trans run)
  | yields run bare others => exact .yields ((pausedGoing step).trans run) bare others

theorem leavingUnprotected {α : Type} {position : Position}
    (bare : position.stack.all Frame.unprotected = true) (a : α) :
    Agree (c.leaving position (.ret a)) (.ret a) :=
  .same fun _ => congrArg fromGenerator (leaveThenUnprotected bare (pure a))

theorem progressedBy {f : Value → Running Progress} {e : Expr} {v : Value}
    (same : ∀ limit, progress (evalWith (c.call limit)) env stack =
      evalWith (c.call limit) env e >>= fun v => (f v).within limit)
    (value : Agree (c.evaluated env e) (.ret v)) : Agree (c.progressed env stack) (f v) :=
  (Agree.same (y := (c.evaluated env e).bind f) same).trans (value.head f)

section
variable {body : List Stmt} (bare : (Frame.statements body :: stack).all Frame.unprotected = true)
  {e : Expr} {v : Value} (value : Agree (c.evaluated env e) (.ret v))
include bare value

theorem assigns (y : String) :
    Agree (c.progressed env (.statements (.assign y e :: body) :: stack))
      (.ret (.going (env.set y v) (.statements body :: stack))) :=
  progressedBy (f := fun v => .ret (.going (env.set y v) _))
    (fun _ => progressAssign bare y e) value

theorem yielding (into : Option String) :
    Agree (c.progressed env (.statements (.yield e into :: body) :: stack))
      (.ret (.paused (.yielded v into ⟨env, .statements body :: stack⟩))) :=
  progressedBy (f := fun v => .ret (.paused (.yielded v into _)))
    (fun _ => progressYield bare e into) value

theorem returning :
    Agree (c.progressed env (.statements (.ret e :: body) :: stack))
      (.ret (.paused (.returned v))) :=
  progressedBy (f := fun v => .ret (.paused (.returned v))) (fun _ => progressReturn bare e) value

theorem goesThrough (y : String) (each : List Stmt) {vs : List Value}
    (listed : v.elements = .ok vs) :
    Agree (c.progressed env (.statements (.forEach y e each :: body) :: stack))
      (.ret (.going env (.forEach y vs each :: .statements body :: stack))) := by
  refine (progressedBy (f := fun v => (Running.always (Eff.ofExcept v.elements)).bind fun vs =>
    .ret (.going env (.forEach y vs each :: _)))
    (fun _ => progressForEach bare y e each) value).trans ?_
  rw [listed]
  exact .refl _

end

theorem evaluatedVar {x : String} {v : Value} (found : env.find? x = some v) :
    Agree (c.evaluated env (.var x)) (.ret v) :=
  .same fun _ => by
    simp only [evaluated, evalWith, found]
    rfl

theorem Asks.driven (asks : c.Asks good last ps seen env stack)
    (parsers : ∀ p ∈ ps, p.isParser = true) (outcomes : ∀ p ∈ ps, c.GivesOnly fits good p)
    {x : Value}
    (fit : fits x) : Agree (c.driven env stack x) ((c.inTurn ps x).bind <| onward fun vs left =>
      .ret (.success (last (seen ++ vs)) left)) := by
  refine (c.drivenAgrees env stack x).trans ?_
  induction asks generalizing x with
  | @returns seen _ _ run =>
    refine (run.outsideRet.head _).trans ?_
    simp only [inTurn, Running.retBind, onward, resumed, List.append_nil]
    exact .refl _
  | @yields p ps seen into position env stack run bare others ih =>
    obtain ⟨parser, more⟩ := List.forall_mem_cons.mp parsers
    obtain ⟨outcome, others'⟩ := List.forall_mem_cons.mp outcomes
    obtain ⟨mark, g, rfl⟩ := Value.parserOf parser
    refine (run.outsideRet.head _).trans ?_
    rw [Running.retBind, inTurn, onwardBind]
    simp only [resumed, Value.isCallable, if_true, viewed, taken, Running.bindAssoc]
    refine .given (outcome x fit) ?_
    rintro _ ⟨o, rfl, held⟩
    simp only [viewRet (partsBack o), viewRet (outcomeIsRead "value" o), Running.retBind]
    cases o with
    | failure => exact leavingUnprotected bare _
    | success v rest =>
      obtain ⟨good', fit'⟩ := held v rest rfl
      refine (c.drivenAgrees _ _ rest).trans ((ih v good' more others' fit').trans ?_)
      simp only [List.append_assoc]
      exact .tail _ fun o => by cases o <;> exact .refl _

theorem Asks.applies {body : List Stmt} (asks : c.Asks good last ps [] env [.statements body])
    (parsers : ∀ p ∈ ps, p.isParser = true) (outcomes : ∀ p ∈ ps, c.GivesOnly fits good p)
    (mark : Mark)
    {x : Value} (fit : fits x) :
    Agree (c.called (.parser mark (.block env body)) x) (c.inTurnTo last ps x) :=
  (c.blockAgrees mark env body x).trans ((asks.driven parsers outcomes fit).head _)

end
end Calling

def collecting (result : Expr) : List Stmt :=
  [.assign "vs" (.list []),
   .forEach "p" (.var "ps") [.yield (.var "p") (some "v"),
     .assign "vs" (.call (.builtin .append) [.var "vs", .var "v"] [])],
   .ret result]

section
variable {good : Value → Prop} {last : List Value → Value} {result : Expr}
  (finish : ∀ env vs, env.find? "vs" = some (.list vs) → (∀ v ∈ vs, good v) →
    Agree (Calling.script.evaluated env result) (.ret (last vs)))
include finish

theorem collectingLoop {ps seen : List Value} {env : Env}
    (kept : env.find? "vs" = some (.list seen))
    (held : ∀ v ∈ seen, good v) :
    Calling.script.Asks good last ps seen env
      [.forEach "p" ps [.yield (.var "p") (some "v"),
        .assign "vs" (.call (.builtin .append) [.var "vs", .var "v"] [])],
       .statements [.ret result]] := by
  induction ps generalizing seen env with
  | nil =>
    refine .returns (.trans (Calling.pausedGoing (.refl _)) ?_)
    exact Calling.pausedHere (Calling.returning rfl (finish env seen kept held))
  | cons p ps ih =>
    refine .going ?_ (.refl _)
    have found : (env.set "p" p).find? "p" = some p := by simp [Env.findSet]
    refine .yields (Calling.pausedHere (Calling.yielding rfl (Calling.evaluatedVar found) _)) rfl
      fun v fits => ?_
    have seen' : (((env.set "p" p).set "v" v).find? "vs") = some (.list seen) := by
      simpa [Env.findSet] using kept
    have value : ((env.set "p" p).set "v" v).find? "v" = some v := by simp [Env.findSet]
    have appended : Agree (Calling.script.evaluated ((env.set "p" p).set "v" v)
        (.call (.builtin .append) [.var "vs", .var "v"] [])) (.ret (.list (seen ++ [v]))) :=
      .later fun limit => by
        simp only [Calling.evaluated, evalWith, evalAllWith, evalNamedWith, seen', value]
        rfl
    refine .going ?_ (Calling.assigns rfl appended "vs")
    refine .going (ih (by simp [Env.findSet]) ?_) (.refl _)
    simpa [or_imp, forall_and] using ⟨held, fits⟩

theorem collectingAsks {ps : List Value} {env : Env} (given : env.find? "ps" = some (.list ps)) :
    Calling.script.Asks good last ps [] env [.statements (collecting result)] := by
  have none : Agree (Calling.script.evaluated env (.list [])) (.ret (.list [])) := .refl _
  have kept : (env.set "vs" (.list [])).find? "vs" = some (.list []) := by simp [Env.findSet]
  have still : (env.set "vs" (.list [])).find? "ps" = some (.list ps) := by
    simpa [Env.findSet] using given
  refine .going (.going (collectingLoop finish kept nofun) ?_) (Calling.assigns rfl none "vs")
  exact Calling.goesThrough rfl (Calling.evaluatedVar still) "p" _ rfl

end

end ParseKit.Script
