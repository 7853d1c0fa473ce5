import ParseKit.Proofs.Limit
import ParseKit.Proofs.Results

/-! What a block yields while it runs, and blocks without protected parts. Where nothing is
protected there is nothing to do on the way out: a fault of a statement is the fault of the
block. -/
namespace ParseKit.Script
open Eff (Below)

/-- The run that starts from `env` and `stack` comes to yield `v`. It is applied to `input` in
the store `w`, and the block goes on from `position`. -/
inductive Yields {σ : Type} (eval : Env → Expr → Run Value) (apply : Value → Parser σ Store Value) :
    Env → List Frame → σ → Store → (v : Value) → (position : Position) → (input : σ) →
      (w : Store) → Prop where
  | next {n env stack x w v into position w'}
      (paused : advance eval n env stack w = (.done (.yielded v into position), w')) :
      Yields eval apply env stack x w v position x w'
  | later {n env stack x w u into from_ w' a rest w'' v position y w'''}
      (paused : advance eval n env stack w = (.done (.yielded u into from_), w'))
      (callable : u.isCallable = true)
      (applied : apply u x w' = (.done (.success a rest), w''))
      (tail : Yields eval apply (from_.env.receive into a) from_.stack rest w'' v position y w''') :
      Yields eval apply env stack x w v position y w'''

/-- A statement raises in the run that starts from `env` and `stack` and is applied to `input`. -/
inductive Throws {σ : Type} (eval : Env → Expr → Run Value) (apply : Value → Parser σ Store Value) :
    Env → List Frame → (input : σ) → Store → Fault → Prop where
  | here {n env stack x w fault w'} (raised : advance eval n env stack w = (.raised fault, w')) :
      Throws eval apply env stack x w fault
  | later {n env stack x w u into from_ w' a rest w'' fault}
      (paused : advance eval n env stack w = (.done (.yielded u into from_), w'))
      (callable : u.isCallable = true)
      (applied : apply u x w' = (.done (.success a rest), w''))
      (tail : Throws eval apply (from_.env.receive into a) from_.stack rest w'' fault) :
      Throws eval apply env stack x w fault

section
variable {σ : Type} {eval : Env → Expr → Run Value} {apply : Value → Parser σ Store Value}
  {env env' : Env} {stack stack' : List Frame} {x : σ} {w w' w'' : Store}

theorem advanceAgrees {m n : Nat} {p : Pause} {exit : Exit Pause}
    (first : advance eval m env stack w = (.done p, w'))
    (second : advance eval n env stack w = (exit, w'')) (ended : exit ≠ .exhausted) :
    exit = .done p ∧ w'' = w' := by
  have left := (advanceBelow (.refl eval) (Nat.le_max_left m n) env stack).ends first nofun
  have right := (advanceBelow (.refl eval) (Nat.le_max_right m n) env stack).ends second ended
  cases left.symm.trans right
  exact ⟨rfl, rfl⟩

theorem Yields.atPause {k : Nat} {p : Pause} (paused : advance eval k env stack w = (.done p, w'))
    {v : Value} {position : Position} {y : σ}
    (found : Yields eval apply env stack x w v position y w'') :
    (∃ into, p = .yielded v into position ∧ y = x ∧ w'' = w') ∨
      ∃ u into from_ a rest w1, p = .yielded u into from_ ∧
        apply u x w' = (.done (.success a rest), w1) ∧
        Yields eval apply (from_.env.receive into a) from_.stack rest w1 v position y w'' := by
  cases found with
  | next other =>
    obtain ⟨same, rfl⟩ := advanceAgrees paused other nofun
    cases same
    exact .inl ⟨_, rfl, rfl, rfl⟩
  | later other callable applied tail =>
    obtain ⟨same, rfl⟩ := advanceAgrees paused other nofun
    cases same
    exact .inr ⟨_, _, _, _, _, _, rfl, applied, tail⟩

theorem Throws.atPause {k : Nat} {p : Pause} (paused : advance eval k env stack w = (.done p, w'))
    {fault : Fault} (found : Throws eval apply env stack x w fault) :
    ∃ u into from_ a rest w1, p = .yielded u into from_ ∧
      apply u x w' = (.done (.success a rest), w1) ∧
      Throws eval apply (from_.env.receive into a) from_.stack rest w1 fault := by
  cases found with
  | here raised =>
    obtain ⟨same, -⟩ := advanceAgrees paused raised nofun
    cases same
  | later other callable applied tail =>
    obtain ⟨same, rfl⟩ := advanceAgrees paused other nofun
    cases same
    exact ⟨_, _, _, _, _, _, rfl, applied, tail⟩

theorem Yields.going (step : progress eval env stack w = (.done (.going env' stack'), w'))
    {v : Value} {position : Position} {y : σ}
    (found : Yields eval apply env' stack' x w' v position y w'') :
    Yields eval apply env stack x w v position y w'' := by
  cases found with
  | @next n _ _ _ _ _ _ _ _ paused => exact .next (n := n + 1) ((Eff.bindOfDone step).trans paused)
  | @later n _ _ _ _ _ _ _ _ _ _ _ _ _ _ _ paused callable applied tail =>
    exact .later (n := n + 1) ((Eff.bindOfDone step).trans paused) callable applied tail

theorem Throws.going (step : progress eval env stack w = (.done (.going env' stack'), w'))
    {fault : Fault} (found : Throws eval apply env' stack' x w' fault) :
    Throws eval apply env stack x w fault := by
  cases found with
  | @here n _ _ _ _ _ _ raised => exact .here (n := n + 1) ((Eff.bindOfDone step).trans raised)
  | @later n _ _ _ _ _ _ _ _ _ _ _ _ paused callable applied tail =>
    exact .later (n := n + 1) ((Eff.bindOfDone step).trans paused) callable applied tail

theorem driveGoing {n : Nat} {exit : Exit (Outcome σ Value)}
    (step : progress eval env stack w = (.done (.going env' stack'), w'))
    (run : drive eval apply n env' stack' x w' = (exit, w'')) (ended : exit ≠ .exhausted) :
    drive eval apply (n + 1) env stack x w = (exit, w'') := by
  cases n with
  | zero => cases run; exact absurd rfl ended
  | succ n =>
    have advanced : advance eval (n + 1) env stack w = advance eval n env' stack' w' :=
      Eff.bindOfDone step
    have more := (Below.refl (fromGenerator (advance eval n env' stack'))).bind fun p =>
      resumeBelow (.refl eval) (fun v => .refl (apply v))
        (driveBelow (.refl eval) (fun v => .refl (apply v)) (Nat.le_succ n)) x p
    refine Eq.trans ?_ (more.ends run ended)
    change Eff.bind _ _ w = Eff.bind _ _ w'
    unfold Eff.bind
    rw [leavingSame advanced]

theorem drivePaused {p : Pause} (step : progress eval env stack w = (.done (.paused p), w'))
    (n : Nat) : drive eval apply (n + 2) env stack x w =
      resume eval apply (drive eval apply (n + 1)) x p w' :=
  Eff.bindOfDone (leavingDone (x := advance eval (n + 1) env stack) (Eff.bindOfDone step))

theorem driveRaised {fault : Fault} (step : progress eval env stack w = (.raised fault, w')) :
    drive eval apply 2 env stack x w = (.raised fault.leaving, w') :=
  Eff.bindOfRaised (leavingRaised (x := advance eval 1 env stack) (Eff.bindOfRaised step))

end

theorem giveEnds {p : Parser Value Store Value} {x : Value} {w w' : Store} {exit : Exit Value}
    (run : give p x w = (exit, w')) (ended : exit ≠ .exhausted) :
    ∃ e, e ≠ .exhausted ∧ p x w = (e, w') ∧
      ∀ q : Parser Value Store Value, q x w = (e, w') → give q x w = (exit, w') := by
  rcases Eff.bindEnds run ended with ⟨o, w1, head, last⟩ | ⟨fault, raised, rfl⟩
  · cases last
    exact ⟨.done o, nofun, head, fun q same => Eff.bindOfDone same⟩
  · exact ⟨.raised fault, nofun, raised, fun q same => Eff.bindOfRaised same⟩

mutual

def Stmt.unprotected : Stmt → Bool
  | .cond _ yes no => allUnprotected yes && allUnprotected no
  | .loop _ body => allUnprotected body
  | .forEach _ _ body => allUnprotected body
  | .protect .. => false
  | _ => true

def allUnprotected : List Stmt → Bool
  | [] => true
  | s :: body => s.unprotected && allUnprotected body

end

def Frame.isCleanup : Frame → Bool
  | .cleanup _ => true
  | _ => false

def Frame.unprotected : Frame → Bool
  | .statements body => allUnprotected body
  | .loop _ body => allUnprotected body
  | .forEach _ _ body => allUnprotected body
  | .cleanup _ => false

section
variable {eval : Env → Expr → Run Value}

theorem leaveOutside {stack : List Frame} (outside : stack.any Frame.isCleanup = false)
    (env : Env) (pending : Option Fault) : leave eval env stack pending = pure pending := by
  induction stack with
  | nil => rfl
  | cons frame stack ih =>
    have parts := Bool.or_eq_false_iff.mp outside
    cases frame with
    | cleanup steps => cases parts.1
    | statements body => exact ih parts.2
    | loop test body => exact ih parts.2
    | forEach x items body => exact ih parts.2

theorem unprotectedOutside {stack : List Frame} (bare : stack.all Frame.unprotected = true) :
    stack.any Frame.isCleanup = false := by
  induction stack with
  | nil => rfl
  | cons frame stack ih =>
    have parts := Bool.and_eq_true_iff.mp bare
    cases frame with
    | cleanup steps => cases parts.1
    | statements body => exact ih parts.2
    | loop test body => exact ih parts.2
    | forEach x items body => exact ih parts.2

theorem leaveUnprotected {stack : List Frame} (bare : stack.all Frame.unprotected = true)
    (env : Env) (pending : Option Fault) : leave eval env stack pending = pure pending :=
  leaveOutside (unprotectedOutside bare) env pending

theorem leaveRaisingUnprotected {α : Type} {position : Position}
    (bare : position.stack.all Frame.unprotected = true) (fault : Fault) :
    leaveRaising eval position fault = (Eff.raise fault : Run α) := by
  unfold leaveRaising
  rw [leaveUnprotected bare]
  rfl

theorem leaveThenUnprotected {α : Type} {position : Position}
    (bare : position.stack.all Frame.unprotected = true) (next : Run α) :
    leaveThen eval position next = next := by
  unfold leaveThen
  rw [leaveUnprotected bare]
  rfl

theorem inBlockUnprotected {α : Type} {position : Position}
    (bare : position.stack.all Frame.unprotected = true) (x : Run α) :
    inBlock eval position x = x := by
  funext w
  unfold inBlock
  simp only [leaveRaisingUnprotected bare]
  change Eff.bind x.attempt _ w = x w
  unfold Eff.bind Eff.attempt
  rcases x w with ⟨a | e | _, w'⟩ <;> rfl

section
variable {env : Env} {body : List Stmt} {stack : List Frame}
  (bare : (Frame.statements body :: stack).all Frame.unprotected = true)
include bare

theorem progressYield (parser : Expr) (into : Option String) :
    progress eval env (.statements (.yield parser into :: body) :: stack) =
      eval env parser >>= fun v =>
        pure (.paused (.yielded v into ⟨env, .statements body :: stack⟩)) := by
  simp only [progress]
  rw [inBlockUnprotected bare]

theorem progressAssign (y : String) (value : Expr) :
    progress eval env (.statements (.assign y value :: body) :: stack) =
      eval env value >>= fun v => pure (.going (env.set y v) (.statements body :: stack)) := by
  simp only [progress]
  rw [inBlockUnprotected bare]

theorem progressReturn (value : Expr) :
    progress eval env (.statements (.ret value :: body) :: stack) =
      eval env value >>= fun v => pure (.paused (.returned v)) := by
  simp only [progress]
  rw [inBlockUnprotected bare]
  exact bind_congr fun v => leaveThenUnprotected bare _

theorem progressLog (value : Expr) :
    progress eval env (.statements (.log value :: body) :: stack) =
      eval env value >>= fun v => Run.note v >>= fun _ =>
        pure (.going env (.statements body :: stack)) := by
  simp only [progress]
  rw [inBlockUnprotected bare]

theorem progressRaise (message : Expr) (kind : ErrorClass) :
    progress eval env (.statements (.raise message kind :: body) :: stack) =
      eval env message >>= fun v => Eff.raise (.raised kind v.plain) := by
  simp only [progress]
  rw [inBlockUnprotected bare]
  exact bind_congr fun v => leaveRaisingUnprotected bare _

theorem progressCond (test : Expr) (yes no : List Stmt) :
    progress eval env (.statements (.cond test yes no :: body) :: stack) =
      eval env test >>= fun v =>
        pure (.going env (.statements (if v.isTrue then yes else no) ::
          .statements body :: stack)) := by
  simp only [progress]
  rw [inBlockUnprotected bare]

theorem progressForEach (y : String) (items : Expr) (each : List Stmt) :
    progress eval env (.statements (.forEach y items each :: body) :: stack) =
      eval env items >>= fun v => Eff.ofExcept v.elements >>= fun vs =>
        pure (.going env (.forEach y vs each :: .statements body :: stack)) := by
  simp only [progress]
  rw [inBlockUnprotected bare, Eff.bindAssoc]

end

theorem progressLoop {env : Env} {stack : List Frame}
    (bare : stack.all Frame.unprotected = true) (test : Expr) (body : List Stmt) :
    progress eval env (.loop test body :: stack) =
      eval env test >>= fun v =>
        if v.isTrue then pure (.going env (.statements body :: .loop test body :: stack))
        else pure (.going env stack) := by
  simp only [progress]
  rw [inBlockUnprotected bare]

def Progress.unprotected : Progress → Bool
  | .paused (.returned _) => true
  | .paused (.yielded _ _ position) => position.stack.all Frame.unprotected
  | .going _ stack => stack.all Frame.unprotected

theorem progressUnprotected {env : Env} {stack : List Frame}
    (bare : stack.all Frame.unprotected = true) :
    (progress eval env stack).Gives fun r => r.unprotected = true := by
  match stack with
  | [] => exact .done rfl
  | .statements [] :: stack =>
    simp only [List.all_cons, Bool.and_eq_true] at bare
    exact .done bare.2
  | .statements (s :: body) :: stack =>
    simp only [List.all_cons, Frame.unprotected, allUnprotected, Bool.and_eq_true] at bare
    obtain ⟨⟨head, tail⟩, rest⟩ := bare
    have after : (Frame.statements body :: stack).all Frame.unprotected = true := by
      simp only [List.all_cons, Frame.unprotected, tail, rest, Bool.and_self]
    cases s with
    | yield parser into => exact .after fun v => .done after
    | assign y value => exact .after fun v => .done after
    | ret value =>
      simp only [progressReturn after]
      exact .after fun v => .done rfl
    | log value => exact .after fun v => .after fun _ => .done after
    | raise message kind =>
      simp only [progressRaise after]
      exact .after fun v => .raise
    | cond test yes no =>
      simp only [Stmt.unprotected, Bool.and_eq_true] at head
      refine .after fun v => .done ?_
      cases v.isTrue with
      | true => exact Bool.and_eq_true_iff.mpr ⟨head.1, after⟩
      | false => exact Bool.and_eq_true_iff.mpr ⟨head.2, after⟩
    | loop test each => exact .done (Bool.and_eq_true_iff.mpr ⟨head, after⟩)
    | forEach y items each => exact .after fun vs => .done (Bool.and_eq_true_iff.mpr ⟨head, after⟩)
    | protect inner steps => exact absurd head Bool.false_ne_true
  | .loop test body :: stack =>
    have parts := Bool.and_eq_true_iff.mp bare
    refine .after fun v => ?_
    split
    · exact .done (Bool.and_eq_true_iff.mpr ⟨parts.1, bare⟩)
    · exact .done parts.2
  | .forEach y [] body :: stack => exact .done (Bool.and_eq_true_iff.mp bare).2
  | .forEach y (v :: items) body :: stack =>
    exact .done (Bool.and_eq_true_iff.mpr ⟨(Bool.and_eq_true_iff.mp bare).1, bare⟩)
  | .cleanup steps :: stack => exact absurd (Bool.and_eq_true_iff.mp bare).1 Bool.false_ne_true

theorem advanceUnprotected {n : Nat} {env : Env} {stack : List Frame}
    (bare : stack.all Frame.unprotected = true) :
    (advance eval n env stack).Gives fun p => (Progress.paused p).unprotected = true := by
  induction n generalizing env stack with
  | zero => exact .exhausted
  | succ n ih =>
    refine (progressUnprotected bare).bind fun r kept => ?_
    cases r with
    | paused p => exact .done kept
    | going env stack => exact ih kept

end
end ParseKit.Script
