import ParseKit.Proofs.Exchange.Evaluation

/-! Blocks of marked code along the blocks that are meant: their cleanups, their steps, and the
parsers that they yield. -/
namespace ParseKit.Script

section
variable (X : Exchange)

inductive Frame.Alike : Frame → Frame → Prop where
  | statements (body : List Stmt) :
      Frame.Alike (.statements body) (.statements (meantBody X.onRight body))
  | loop (test : Expr) (body : List Stmt) :
      Frame.Alike (.loop test body) (.loop (test.meant X.onRight) (meantBody X.onRight body))
  | forEach (x : String) {items items' : List Value} (alike : AllAlike X items items')
      (body : List Stmt) :
      Frame.Alike (.forEach x items body) (.forEach x items' (meantBody X.onRight body))
  | cleanup (steps : List Cleanup) :
      Frame.Alike (.cleanup steps) (.cleanup (meantCleanup X.onRight steps))

abbrev StackAlike : List Frame → List Frame → Prop := List.Forall₂ (Frame.Alike X)

structure Position.Alike (position position' : Position) : Prop where
  env : position.env.Alike X position'.env
  stack : StackAlike X position.stack position'.stack

inductive Pause.Alike : Pause → Pause → Prop where
  | yielded {v v' : Value} (value : v.Alike X v') (into : Option String)
      {position position' : Position} (here : position.Alike X position') :
      Pause.Alike (.yielded v into position) (.yielded v' into position')
  | returned {v v' : Value} (value : v.Alike X v') : Pause.Alike (.returned v) (.returned v')

inductive Progress.Alike : Progress → Progress → Prop where
  | paused {p p' : Pause} (pause : p.Alike X p') : Progress.Alike (.paused p) (.paused p')
  | going {env env' : Env} (bound : env.Alike X env') {stack stack' : List Frame}
      (frames : StackAlike X stack stack') : Progress.Alike (.going env stack) (.going env' stack')

end

section
variable {X : Exchange} {K : Accord X} {e : Env → Expr → Run Value}
  {f : Nat → Env → Expr → Run Value} (evals : EvalsAlong K e f)
include evals

theorem cleanupAlong {env env' : Env} (bound : env.Alike X env') (steps : List Cleanup) :
    Along K (fun _ _ => True) (runCleanup e env steps)
      (fun n => runCleanup (f n) env' (meantCleanup X.onRight steps)) := by
  induction steps with
  | nil => exact .done trivial
  | cons step steps ih =>
    cases step with
    | log value => exact (evals value bound).bind fun _ _ alike => (Along.note alike).bind fun _ _ _ => ih
    | raise message kind =>
      refine (evals message bound).bind fun v v' alike => ?_
      rw [Value.sameOfSeen Value.plainSeen alike.seen]
      exact .raise _

theorem leaveAlong {env env' : Env} (bound : env.Alike X env') {stack stack' : List Frame}
    (frames : StackAlike X stack stack') (pending : Option Fault) :
    Along K Eq (leave e env stack pending) (fun n => leave (f n) env' stack' pending) := by
  induction frames generalizing pending with
  | nil => exact .done rfl
  | cons frame _ ih =>
    cases frame with
    | cleanup steps =>
      refine (cleanupAlong evals bound steps).attempt.bind fun r r' alike => ?_
      cases alike with
      | ok => exact ih pending
      | error fault => exact ih (some fault)
    | statements | loop | forEach => exact ih pending

section
variable {α β : Type} {R : α → β → Prop} {position position' : Position}
  (here : position.Alike X position')
include here

theorem leaveRaisingAlong (fault : Fault) : Along K R (leaveRaising e position fault)
    (fun n => leaveRaising (f n) position' fault) :=
  (leaveAlong evals here.env here.stack (some fault)).bind fun last last' same => by
    subst same
    exact .raise _

theorem leaveThenAlong {x : Run α} {y : Nat → Run β} (last : Along K R x y) :
    Along K R (leaveThen e position x) (fun n => leaveThen (f n) position' (y n)) :=
  (leaveAlong evals here.env here.stack none).bind fun pending pending' same => by
    subst same
    cases pending with
    | some fault => exact .raise fault
    | none => exact last

theorem inBlockAlong {x : Run α} {y : Nat → Run β} (inner : Along K R x y) :
    Along K R (inBlock e position x) (fun n => inBlock (f n) position' (y n)) :=
  inner.attempt.bind fun r r' alike => by
    cases alike with
    | ok related => exact .done related
    | error fault => exact leaveRaisingAlong evals here fault

end

omit evals in
theorem leavingAlong {α β : Type} {R : α → β → Prop} {x : Run α} {y : Nat → Run β}
    (inner : Along K R x y) : Along K R (fromGenerator x) (fun n => fromGenerator (y n)) :=
  inner.attempt.bind fun r r' alike => by
    cases alike with
    | ok related => exact .done related
    | error fault => exact .raise fault.leaving

theorem statementAlong {env env' : Env} (bound : env.Alike X env') {stack stack' : List Frame}
    (frames : StackAlike X stack stack') (s : Stmt) (body : List Stmt) :
    Along K (Progress.Alike X) (progress e env (.statements (s :: body) :: stack))
      (fun n => progress (f n) env' (.statements (meantBody X.onRight (s :: body)) :: stack')) := by
  have after : StackAlike X (.statements body :: stack)
      (.statements (meantBody X.onRight body) :: stack') := .cons (.statements body) frames
  have here : Position.Alike X ⟨env, .statements body :: stack⟩
      ⟨env', .statements (meantBody X.onRight body) :: stack'⟩ := ⟨bound, after⟩
  have value := fun expr => inBlockAlong evals here (evals expr bound)
  cases s with
  | yield parser into =>
    exact (value parser).bind fun _ _ alike => .done (.paused (.yielded alike into here))
  | assign x expr => exact (value expr).bind fun _ _ alike => .done (.going (.set x alike bound) after)
  | ret expr =>
    exact (value expr).bind fun _ _ alike =>
      leaveThenAlong evals here (.done (.paused (.returned alike)))
  | log expr =>
    exact (value expr).bind fun _ _ alike => (Along.note alike).bind fun _ _ _ =>
      .done (.going bound after)
  | raise message kind =>
    refine (value message).bind fun v v' alike => ?_
    rw [Value.sameOfSeen Value.plainSeen alike.seen]
    exact leaveRaisingAlong evals here _
  | cond test yes no =>
    refine (value test).bind fun v v' alike => .done (.going bound ?_)
    rw [Value.sameOfSeen Value.isTrueSeen alike.seen]
    cases v'.isTrue with
    | true => exact .cons (.statements yes) after
    | false => exact .cons (.statements no) after
  | loop test inner => exact .done (.going bound (.cons (.loop test inner) after))
  | forEach x items inner =>
    refine (inBlockAlong evals here ((evals items bound).bind fun _ _ alike =>
      Along.ofResult alike.elements)).bind fun _ _ alike => ?_
    exact .done (.going bound (.cons (.forEach x alike inner) after))
  | protect inner steps =>
    exact .done (.going bound (.cons (.statements inner) (.cons (.cleanup steps) after)))

theorem progressAlong {env env' : Env} (bound : env.Alike X env') {stack stack' : List Frame}
    (frames : StackAlike X stack stack') :
    Along K (Progress.Alike X) (progress e env stack) (fun n => progress (f n) env' stack') := by
  cases frames with
  | nil => exact .done (.paused (.returned .none))
  | cons frame frames =>
    have here : Position.Alike X ⟨env, _⟩ ⟨env', _⟩ := ⟨bound, frames⟩
    cases frame with
    | statements body =>
      cases body with
      | nil => exact .done (.going bound frames)
      | cons s body => exact statementAlong evals bound frames s body
    | loop test body =>
      refine (inBlockAlong evals here (evals test bound)).bind fun v v' alike => ?_
      rw [Value.sameOfSeen Value.isTrueSeen alike.seen]
      split
      · exact .done (.going bound (.cons (.statements body) (.cons (.loop test body) frames)))
      · exact .done (.going bound frames)
    | forEach x items body =>
      cases items with
      | nil => exact .done (.going bound frames)
      | cons first others =>
        exact .done (.going (.set x first bound)
          (.cons (.statements body) (.cons (.forEach x others body) frames)))
    | cleanup steps =>
      exact (inBlockAlong evals here (cleanupAlong evals bound steps)).bind fun _ _ _ =>
        .done (.going bound frames)

theorem advanceAlong {m : Nat} {n : Nat → Nat} (le : ∀ k, m ≤ n k) {env env' : Env}
    (bound : env.Alike X env') {stack stack' : List Frame} (frames : StackAlike X stack stack') :
    Along K (Pause.Alike X) (advance e m env stack) (fun k => advance (f k) (n k) env' stack') := by
  induction m generalizing n env env' stack stack' with
  | zero => exact .short
  | succ m ih =>
    obtain ⟨n, rfl⟩ := aheadBy le
    refine (progressAlong evals bound frames).bind fun p p' alike => ?_
    cases alike with
    | paused pause => exact .done pause
    | going bound frames => exact ih (fun k => Nat.le_of_succ_le_succ (le k)) bound frames

omit evals in
theorem receiveAlike {env env' : Env} (bound : env.Alike X env') (into : Option String)
    {v v' : Value} (alike : v.Alike X v') :
    Env.Alike X (env.receive into v) (env'.receive into v') := by
  cases into with
  | none => exact bound
  | some x => exact .set x alike bound

variable {a : Value → Parser Value Store Value} {b : Nat → Value → Parser Value Store Value}
  (applies : ∀ {p p' x x'}, Value.Alike X p p' → Value.Alike X x x' →
    Along K (outcomes X) (a p x) (fun n => b n p' x'))
include applies

theorem driveAlong {m : Nat} {n : Nat → Nat} (le : ∀ k, m ≤ n k) {env env' : Env}
    (bound : env.Alike X env') {stack stack' : List Frame} (frames : StackAlike X stack stack')
    {x x' : Value} (input : x.Alike X x') :
    Along K (outcomes X) (drive e a m env stack x) (fun k => drive (f k) (b k) (n k) env' stack' x') := by
  induction m generalizing n env env' stack stack' x x' with
  | zero => exact .short
  | succ m ih =>
    obtain ⟨n, rfl⟩ := aheadBy le
    have less : ∀ k, m ≤ n k := fun k => Nat.le_of_succ_le_succ (le k)
    refine (leavingAlong (advanceAlong evals less bound frames)).bind fun p p' alike => ?_
    cases alike with
    | returned value => exact .done ⟨value, input⟩
    | yielded value into here =>
      have callable := Value.sameOfSeen Value.isCallableSeen value.seen
      have shown := Value.sameOfSeen Value.displaySeen value.seen
      simp only [resume, callable, shown]
      split
      · refine (applies value input).bind fun o o' alike => ?_
        cases o <;> cases o' <;> try exact alike.elim
        · exact leavingAlong (leaveThenAlong evals here (.done trivial))
        · exact ih less (receiveAlike here.env into alike.1) here.stack alike.2
      · exact leavingAlong (leaveThenAlong evals here (.raise _))

end

end ParseKit.Script
