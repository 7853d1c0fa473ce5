import ParseKit.Proofs.Block.Protected
import ParseKit.Proofs.Block.Yield

/-! The machine leaves protected bodies as the nested text does. What is on its stack is what
follows the statements that are running, and leaving the stack does the cleanups that stand
there. Main statement: where no parser raises inside a protected body, a block that ends
answers as its nested text, with every cleanup done in order. -/
namespace ParseKit.Script
open Eff (Below)

section
variable {eval : Env → Expr → Run Value}

theorem leaveKeeps (env : Env) (stack : List Frame) (fault : Fault) :
    (leave eval env stack (some fault)).Gives fun last => last.isSome = true := by
  induction stack generalizing fault with
  | nil => exact .done rfl
  | cons frame stack ih =>
    cases frame with
    | cleanup steps =>
      exact .after fun
        | .ok () => ih fault
        | .error other => ih other
    | statements body => exact ih fault
    | loop test body => exact ih fault
    | forEach x items body => exact ih fault

theorem leaveKept {α : Type} (env : Env) (stack : List Frame) (fault : Fault)
    {f g : Option Fault → Run α} (same : ∀ last, f (some last) = g (some last)) :
    leave eval env stack (some fault) >>= f = leave eval env stack (some fault) >>= g := by
  refine (leaveKeeps env stack fault).congr fun last kept => ?_
  obtain ⟨other, rfl⟩ := Option.isSome_iff_exists.mp kept
  exact same other

theorem leaveRaisingBind {α β : Type} (position : Position) (fault : Fault) (k : α → Run β) :
    leaveRaising eval position fault >>= k = leaveRaising eval position fault :=
  Eff.bindAssoc (leave eval position.env position.stack (some fault)) _ k

theorem inBlockBind {α β : Type} (position : Position) (first : Run α) (k : α → Run β) :
    inBlock eval position first >>= k = first.attempt >>= fun
      | .ok a => k a
      | .error fault => leaveRaising eval position fault := by
  refine (Eff.bindAssoc first.attempt _ k).trans ?_
  refine bind_congr fun result => ?_
  cases result with
  | ok a => rfl
  | error fault => exact leaveRaisingBind position fault k

theorem beginningBind {σ α β : Type} (env : Env) (x : σ) (first : Run α)
    (next : α → Run (Reached σ)) (k : Reached σ → Run β) :
    beginning env x first next >>= k = first.attempt >>= fun
      | .ok a => next a >>= k
      | .error fault => k ⟨.raised fault, env, x, []⟩ := by
  refine (Eff.bindAssoc first.attempt _ k).trans ?_
  refine bind_congr fun result => ?_
  cases result <;> rfl

end

section
variable {σ : Type} (eval : Env → Expr → Run Value) (apply : Value → Parser σ Store Value)
  (limit : Nat)

def finish : List Frame → Ending → Env → σ → Run (Outcome σ Value)
  | [], e, _, x => e.answer x
  | .cleanup steps :: stack, e, env, x => do
    match ← (runCleanup eval env steps).attempt with
    | .ok () => finish stack e env x
    | .error fault => finish stack (.raised fault) env x
  | .statements body :: stack, .through, env, x =>
    runAll eval apply limit body env x >>= fun r => finish stack r.ending r.env r.input
  | .loop test body :: stack, .through, env, x =>
    loopRun eval test (runAll eval apply limit body) limit env x >>= fun r =>
      finish stack r.ending r.env r.input
  | .forEach y items body :: stack, .through, env, x =>
    eachRun y (runAll eval apply limit body) items env x >>= fun r =>
      finish stack r.ending r.env r.input
  | _ :: stack, e, env, x => finish stack e env x

def settle (stack : List Frame) (r : Reached σ) : Run (Outcome σ Value) :=
  finish eval apply limit stack r.ending r.env r.input

def afterPause (x : σ) : Pause → Run (Outcome σ Value)
  | .returned v => pure (.success v x)
  | .yielded v into position =>
    yieldRun apply v into position.env x >>= settle eval apply limit position.stack

def afterProgress (x : σ) : Progress → Run (Outcome σ Value)
  | .paused p => afterPause eval apply limit x p
  | .going env stack => finish eval apply limit stack .through env x

end

section
variable {σ : Type} {eval : Env → Expr → Run Value} {apply : Value → Parser σ Store Value}
  {limit : Nat}

theorem finishRaised (stack : List Frame) (fault : Fault) (env : Env) (x : σ) :
    finish eval apply limit stack (.raised fault) env x =
      fromGenerator (leaveRaising eval ⟨env, stack⟩ fault) := by
  rw [leavingRaising]
  induction stack generalizing fault with
  | nil => rfl
  | cons frame stack ih =>
    cases frame with
    | cleanup steps =>
      refine Eq.trans ?_ (Eff.bindAssoc (runCleanup eval env steps).attempt _ _).symm
      refine bind_congr fun result => ?_
      cases result with
      | ok u => exact ih fault
      | error other => exact (ih other).trans (leaveKept env stack other fun _ => rfl)
    | statements body => exact ih fault
    | loop test body => exact ih fault
    | forEach y items body => exact ih fault

theorem finishSkipped {frame : Frame} (plain : frame.isCleanup = false) {e : Ending}
    (left : e.isThrough = false) (stack : List Frame) (env : Env) (x : σ) :
    finish eval apply limit (frame :: stack) e env x = finish eval apply limit stack e env x := by
  cases e with
  | through => cases left
  | _ =>
    cases frame with
    | cleanup steps => cases plain
    | _ => rfl

theorem finishLeft {e : Ending} (left : e.isThrough = false)
    (stack : List Frame) (env : Env) (x : σ) :
    finish eval apply limit stack e env x = leave eval env stack none >>= fun
      | some fault => Eff.raise fault.leaving
      | none => e.answer x := by
  induction stack with
  | nil => rfl
  | cons frame stack ih =>
    cases frame with
    | cleanup steps =>
      refine Eq.trans ?_ (Eff.bindAssoc (runCleanup eval env steps).attempt _ _).symm
      refine bind_congr fun result => ?_
      cases result with
      | ok u => exact ih
      | error fault =>
        refine (finishRaised stack fault env x).trans ?_
        exact (leavingRaising eval _ fault).trans (leaveKept env stack fault fun _ => rfl)
    | _ => exact (finishSkipped rfl left stack env x).trans ih

theorem endingThrough {r : Reached σ} (through : r.ending = .through) :
    lastFault r.marks = none := by
  unfold Reached.ending at through
  cases last : lastFault r.marks with
  | none => rfl
  | some fault =>
    rw [last] at through
    cases through

theorem goOnSettle {frame : Frame} (plain : frame.isCleanup = false) (stack : List Frame)
    {next : Env → σ → Run (Reached σ)} (through : ∀ env x,
      finish eval apply limit (frame :: stack) .through env x =
        next env x >>= settle eval apply limit stack) (r : Reached σ) :
    r.goOn next >>= settle eval apply limit stack =
      settle eval apply limit (frame :: stack) r := by
  change _ = finish eval apply limit (frame :: stack) r.ending r.env r.input
  unfold Reached.goOn
  cases ending : r.ending with
  | through =>
    rw [through]
    refine (Eff.bindAssoc (next r.env r.input) _ _).trans ?_
    refine bind_congr fun after => ?_
    have same : Reached.ending { after with marks := r.marks ++ after.marks } = after.ending := by
      unfold Reached.ending
      rw [lastFaultAppend, endingThrough ending, Option.or_none]
    change finish eval apply limit stack _ _ _ = finish eval apply limit stack _ _ _
    rw [same]
  | _ =>
    refine Eq.trans ?_ (finishSkipped plain ?_ stack r.env r.input).symm
    · change finish eval apply limit stack _ _ _ = _
      rw [ending]
    · rfl

theorem cleanUpSettle (steps : List Cleanup) (stack : List Frame) (r : Reached σ) :
    r.cleanUp eval steps >>= settle eval apply limit stack =
      settle eval apply limit (.cleanup steps :: stack) r := by
  refine (Eff.bindAssoc (runCleanup eval r.env steps).attempt _ _).trans ?_
  refine bind_congr fun result => ?_
  have ending : ∀ fault, Reached.ending
      { r with marks := .opened steps :: r.marks ++ [.closed steps fault] } =
        (fault.map .raised).getD r.ending := by
    intro fault
    change ((lastFault (r.marks ++ [.closed steps fault])).map _).getD _ = _
    rw [lastFaultAppend]
    cases fault <;> rfl
  cases result with
  | ok u =>
    change finish eval apply limit stack _ _ _ = finish eval apply limit stack _ _ _
    rw [ending]
    rfl
  | error fault =>
    change finish eval apply limit stack _ _ _ = finish eval apply limit stack _ _ _
    rw [ending]
    rfl

theorem finishStatement (s : Stmt) (body : List Stmt) (stack : List Frame) (env : Env) (x : σ) :
    finish eval apply limit (.statements (s :: body) :: stack) .through env x =
      s.run eval apply limit env x >>= settle eval apply limit (.statements body :: stack) := by
  have first : ∀ r : Reached σ, r.goOn (runAll eval apply limit body) >>= settle eval apply limit stack =
      settle eval apply limit (.statements body :: stack) r :=
    goOnSettle rfl stack fun _ _ => rfl
  exact (Eff.bindAssoc (s.run eval apply limit env x) _ _).trans (bind_congr first)

theorem finishEach (y : String) (v : Value) (items : List Value) (body : List Stmt)
    (stack : List Frame) (env : Env) (x : σ) :
    finish eval apply limit (.forEach y (v :: items) body :: stack) .through env x =
      finish eval apply limit (.statements body :: .forEach y items body :: stack) .through
        (env.set y v) x := by
  have round : ∀ r : Reached σ, r.goOn (eachRun y (runAll eval apply limit body) items) >>=
        settle eval apply limit stack =
      settle eval apply limit (.forEach y items body :: stack) r :=
    goOnSettle rfl stack fun _ _ => rfl
  exact (Eff.bindAssoc (runAll eval apply limit body (env.set y v) x) _ _).trans (bind_congr round)

theorem finishRound (test : Expr) (body : List Stmt) (stack : List Frame) (env : Env) (x : σ) :
    (runAll eval apply limit body env x >>= fun r =>
        r.goOn (loopRun eval test (runAll eval apply limit body) limit)) >>=
      settle eval apply limit stack =
    finish eval apply limit (.statements body :: .loop test body :: stack) .through env x := by
  have round : ∀ r : Reached σ, r.goOn (loopRun eval test (runAll eval apply limit body) limit) >>=
        settle eval apply limit stack =
      settle eval apply limit (.loop test body :: stack) r :=
    goOnSettle rfl stack fun _ _ => rfl
  exact (Eff.bindAssoc (runAll eval apply limit body env x) _ _).trans (bind_congr round)

theorem finishProtected (inner : List Stmt) (steps : List Cleanup) (stack : List Frame) (env : Env)
    (x : σ) :
    (Stmt.protect inner steps).run eval apply limit env x >>= settle eval apply limit stack =
      finish eval apply limit (.statements inner :: .cleanup steps :: stack) .through env x :=
  (Eff.bindAssoc (runAll eval apply limit inner env x) _ _).trans
    (bind_congr (cleanUpSettle steps stack))

theorem finishBelow {m n : Nat} (le : m ≤ n) (stack : List Frame) (e : Ending) (env : Env) (x : σ) :
    Below (finish eval apply m stack e env x) (finish eval apply n stack e env x) := by
  induction stack generalizing e env x with
  | nil => exact .refl _
  | cons frame stack ih =>
    cases frame with
    | cleanup steps =>
      exact (Below.refl _).bind fun
        | .ok () => ih e env x
        | .error fault => ih (.raised fault) env x
    | statements body =>
      cases e with
      | through => exact (runAllBelow le body env x).bind fun r => ih r.ending r.env r.input
      | _ => exact ih _ env x
    | loop test body =>
      cases e with
      | through =>
        exact (loopRunBelow test (runAllBelow le body) le env x).bind fun r =>
          ih r.ending r.env r.input
      | _ => exact ih _ env x
    | forEach y items body =>
      cases e with
      | through =>
        exact (eachRunBelow y (runAllBelow le body) items env x).bind fun r =>
          ih r.ending r.env r.input
      | _ => exact ih _ env x

theorem settleBelow {m n : Nat} (le : m ≤ n) (stack : List Frame) (r : Reached σ) :
    Below (settle eval apply m stack r) (settle eval apply n stack r) :=
  finishBelow le stack r.ending r.env r.input

theorem afterPauseBelow {m n : Nat} (le : m ≤ n) (x : σ) (p : Pause) :
    Below (afterPause eval apply m x p) (afterPause eval apply n x p) := by
  cases p with
  | returned v => exact .refl _
  | yielded v into position => exact (Below.refl _).bind fun r => settleBelow le position.stack r

theorem leaveRaisingFinish {m : Nat} (stack : List Frame) (fault : Fault) (env : Env) (x : σ) :
    Below (fromGenerator (leaveRaising eval ⟨env, stack⟩ fault) >>= afterProgress eval apply m x)
      (finish eval apply limit stack (.raised fault) env x) := by
  rw [finishRaised, leavingRaising, leavingRaising, Eff.bindAssoc]
  exact .refl _

theorem inBlockFinish {α : Type} {m n : Nat} {env : Env} {stack : List Frame} {x : σ}
    {first : Run α} {k : α → Run Progress} {next : α → Run (Reached σ)}
    (tail : ∀ a, Below (fromGenerator (k a) >>= afterProgress eval apply m x)
      (next a >>= settle eval apply n stack)) :
    Below (fromGenerator (inBlock eval ⟨env, stack⟩ first >>= k) >>= afterProgress eval apply m x)
      (beginning env x first next >>= settle eval apply n stack) := by
  rw [inBlockBind, attemptLeaving, Eff.bindAssoc, beginningBind]
  refine (Below.refl first.attempt).bind fun result => ?_
  cases result with
  | ok a => exact tail a
  | error fault => exact leaveRaisingFinish stack fault env x

theorem progressFinish {m : Nat} (env : Env) (stack : List Frame) (x : σ) :
    Below (fromGenerator (progress eval env stack) >>= afterProgress eval apply m x)
      (finish eval apply (m + 1) stack .through env x) := by
  have grow : ∀ stack env x, Below (finish eval apply m stack .through env x)
      (finish eval apply (m + 1) stack .through env x) :=
    fun stack env x => finishBelow (Nat.le_succ m) stack .through env x
  have pause : ∀ p, Below (afterPause eval apply m x p) (afterPause eval apply (m + 1) x p) :=
    afterPauseBelow (Nat.le_succ m) x
  -- One case for each form of the top of the stack.
  match stack with
  | [] => exact .refl _
  | .statements [] :: stack => exact grow stack env x
  | .statements (s :: body) :: stack =>
    rw [finishStatement]
    cases s with
    | yield parser into =>
      exact inBlockFinish fun v => pause (.yielded v into ⟨env, .statements body :: stack⟩)
    | assign y value =>
      exact inBlockFinish fun v => grow (.statements body :: stack) (env.set y v) x
    | ret value =>
      refine inBlockFinish fun v => ?_
      change Below _ (finish eval apply (m + 1) (.statements body :: stack) (.returned v) env x)
      rw [leavingThen, Eff.bindAssoc, finishLeft rfl]
      refine (Below.refl _).bind fun last => ?_
      cases last <;> exact .refl _
    | log value =>
      exact inBlockFinish fun v => (Below.refl (Run.note v)).bind fun _ =>
        grow (.statements body :: stack) env x
    | raise message kind =>
      refine inBlockFinish fun v => ?_
      exact leaveRaisingFinish (.statements body :: stack) _ env x
    | cond test yes no =>
      refine inBlockFinish fun v => ?_
      cases v.isTrue with
      | true => exact grow (.statements yes :: .statements body :: stack) env x
      | false => exact grow (.statements no :: .statements body :: stack) env x
    | loop test each =>
      exact (loopRunBelow test (runAllBelow (Nat.le_succ m) each) (Nat.le_succ m) env x).bind
        fun r => settleBelow (Nat.le_succ m) (.statements body :: stack) r
    | forEach y items each =>
      exact inBlockFinish fun vs => grow (.forEach y vs each :: .statements body :: stack) env x
    | protect inner steps =>
      rw [finishProtected]
      exact grow (.statements inner :: .cleanup steps :: .statements body :: stack) env x
  | .loop test body :: stack =>
    refine inBlockFinish fun v => ?_
    change Below _ ((if v.isTrue then runAll eval apply (m + 1) body env x >>= fun r =>
        r.goOn (loopRun eval test (runAll eval apply (m + 1) body) m)
      else pure ⟨.through, env, x, []⟩) >>= _)
    cases v.isTrue with
    | true =>
      have more : RunsBelow (runAll eval apply m body) (runAll eval apply (m + 1) body) :=
        runAllBelow (Nat.le_succ m) body
      have rounds : RunsBelow (loopRun eval test (runAll eval apply m body) m)
          (loopRun eval test (runAll eval apply (m + 1) body) m) :=
        loopRunBelow test more (Nat.le_refl m)
      have settles : ∀ r, Below (settle eval apply m stack r) (settle eval apply (m + 1) stack r) :=
        settleBelow (Nat.le_succ m) stack
      have round := ((more env x).bind (goOnBelow rounds)).bind settles
      rw [finishRound] at round
      exact round
    | false => exact grow stack env x
  | .forEach y [] body :: stack => exact grow stack env x
  | .forEach y (v :: items) body :: stack =>
    rw [finishEach]
    exact grow (.statements body :: .forEach y items body :: stack) (env.set y v) x
  | .cleanup steps :: stack =>
    change Below (fromGenerator (inBlock eval ⟨env, stack⟩ (runCleanup eval env steps) >>= _) >>= _) _
    rw [inBlockBind, attemptLeaving, Eff.bindAssoc]
    refine (Below.refl _).bind fun result => ?_
    cases result with
    | ok u => exact grow stack env x
    | error fault => exact leaveRaisingFinish stack fault env x

theorem advanceFinish {m : Nat} (k : Nat) (env : Env) (stack : List Frame) (x : σ) :
    Below (fromGenerator (advance eval k env stack) >>= afterPause eval apply m x)
      (finish eval apply (m + k) stack .through env x) := by
  induction k generalizing env stack with
  | zero => exact .exhausted _
  | succ k ih =>
    refine Below.trans ?_ (progressFinish (m := m + k) env stack x)
    unfold advance
    rw [leavingBind, Eff.bindAssoc]
    refine (Below.refl _).bind fun r => ?_
    cases r with
    | paused p => exact afterPauseBelow (Nat.le_add_right m k) x p
    | going env stack => exact ih env stack

/-- No parser raises that is yielded inside a protected body. -/
def CalmInside (eval : Env → Expr → Run Value) (apply : Value → Parser σ Store Value) (env : Env)
    (stack : List Frame) (x : σ) (w : Store) : Prop :=
  ∀ v position y w', Yields eval apply env stack x w v position y w' →
    position.stack.any Frame.isCleanup = true → v.isCallable = true →
      ∀ fault w'', apply v y w' ≠ (.raised fault, w'')

theorem driveFinish {n : Nat} {env : Env} {stack : List Frame} {x : σ} {w w' : Store}
    {exit : Exit (Outcome σ Value)} (calm : CalmInside eval apply env stack x w)
    (run : drive eval apply n env stack x w = (exit, w')) (ended : exit ≠ .exhausted) :
    ∃ m, finish eval apply m stack .through env x w = (exit, w') := by
  induction n generalizing env stack x w with
  | zero => cases run; exact absurd rfl ended
  | succ n ih =>
    have advanced : ∀ {m}, (fromGenerator (advance eval n env stack) >>= afterPause eval apply m x) w =
          (exit, w') →
        ∃ m, finish eval apply m stack .through env x w = (exit, w') :=
      fun run => ⟨_, (advanceFinish n env stack x).ends run ended⟩
    unfold drive at run
    rcases Eff.bindEnds run ended with ⟨p, w1, emitted, run⟩ | ⟨fault, raised, rfl⟩
    · have resumed : ∀ {m}, afterPause eval apply m x p w1 = (exit, w') →
          ∃ m, finish eval apply m stack .through env x w = (exit, w') :=
        fun same => advanced ((Eff.bindOfDone emitted).trans same)
      have paused := leavingDoneIff.mp emitted
      cases p with
      | returned v => exact resumed (m := 0) run
      | yielded v into position =>
        simp only [resume] at run
        simp only [afterPause, yieldRun] at resumed
        cases callable : v.isCallable with
        | false =>
          have closed : finish eval apply 0 position.stack (.misfit v) position.env x = _ :=
            (finishLeft rfl position.stack position.env x).trans
              (leavingThen eval position (Eff.raise (.notParser v.display))).symm
          rw [callable] at run resumed
          exact resumed ((congrFun closed w1).trans run)
        | true =>
          rw [callable] at run
          simp only [callable, if_true, Eff.bindAssoc] at resumed
          rcases Eff.bindEnds run ended with ⟨o, w2, applied, run⟩ | ⟨fault, raised, rfl⟩
          · have first := Eff.attemptOfDone applied
            cases o with
            | failure =>
              have closed : finish eval apply 0 position.stack .mismatch position.env x = _ :=
                (finishLeft rfl position.stack position.env x).trans
                  (leavingThen eval position (pure Outcome.failure)).symm
              have same := (congrFun closed w2).trans run
              exact resumed ((Eff.bindOfDone first).trans same)
            | success a rest =>
              have further : CalmInside eval apply (position.env.receive into a) position.stack
                  rest w2 := fun u place y w3 found =>
                calm u place y w3 (.later paused callable applied found)
              obtain ⟨m, after⟩ := ih further run
              exact resumed ((Eff.bindOfDone first).trans after)
          · have first := Eff.attemptOfRaised raised
            have outside : position.stack.any Frame.isCleanup = false := by
              cases inside : position.stack.any Frame.isCleanup with
              | false => rfl
              | true => exact absurd raised (calm v position x w1 (.next paused) inside callable _ _)
            have closed : finish eval apply 0 position.stack (.broken fault) position.env x = _ :=
              finishLeft rfl position.stack position.env x
            rw [leaveOutside outside] at closed
            exact resumed ((Eff.bindOfDone first).trans (congrFun closed w'))
    · exact advanced (m := 0) (Eff.bindOfRaised raised)

end

def Ending.exit : Ending → Value → Exit Value
  | through, x => .done (.success .none x)
  | returned v, x => .done (.success v x)
  | raised fault, _ => .raised fault.leaving
  | broken fault, _ => .raised fault
  | mismatch, _ => .done .failure
  | misfit v, _ => .raised (.notParser v.display)

theorem exitAnswered {e : Ending} {input x : Value} {w w' v : Store}
    {o : Exit (Outcome Value Value)} {exit : Exit Value} (answered : e.answer input v = (o, w'))
    (given : give (fun _ _ => (o, w')) x w = (exit, w')) : v = w' ∧ exit = e.exit input := by
  cases e <;> cases answered <;> cases given <;> exact ⟨rfl, rfl⟩

theorem cleanupsRunOnce {n : Nat} {mark : Mark} {env : Env} {body : List Stmt} {x : Value}
    {w w' : Store} {exit : Exit Value}
    (calm : CalmInside (eval n) (readParts (apply n)) env [.statements body] x w)
    (run : apply (n + 1) (.parser mark (.block env body)) x w = (exit, w'))
    (ended : exit ≠ .exhausted) :
    ∃ m r, runAll (eval n) (readParts (apply n)) m body env x w = (.done r, w') ∧
      Nested r.marks ∧ exit = r.ending.exit r.input := by
  obtain ⟨e, going, driven, same⟩ := giveEnds (p := runBlock (eval n) _ n env body) run ended
  obtain ⟨m, finished⟩ := driveFinish calm driven going
  rcases Eff.bindEnds finished going with ⟨r, v, reached, last⟩ | ⟨fault, raised, -⟩
  · obtain ⟨_, done, nested⟩ := runAllNested body env x _ _ _ reached nofun
    cases done
    obtain ⟨rfl, answer⟩ := exitAnswered last (same (fun _ _ => (e, w')) rfl)
    exact ⟨m, r, reached, nested, answer⟩
  · obtain ⟨_, impossible, -⟩ := runAllNested body env x _ _ _ raised nofun
    cases impossible

def guarded : List Stmt :=
  [.protect
    [.protect [.yield (.atom .item) (some "c"), .yield (.atom .fail) none]
      [.log (.var "c"), .raise (.lit (.str ['!']))]]
    [.log (.lit (.str ['.']))]]

theorem guardedRunsOnce : ∃ m r,
    runAll (eval 10) (readParts (apply 10)) m guarded [] (.str ['a', 'b']) .empty =
        (.done r, ⟨#[], #[.note (.str ['a']), .note (.str ['.'])], 0⟩) ∧
      Nested r.marks ∧ .raised (.raised .callback ['!']) = r.ending.exit r.input := by
  have calm : CalmInside (eval 10) (readParts (apply 10)) [] [.statements guarded]
      (.str ['a', 'b']) .empty := by
    intro v position y w first _ _ fault w' raised
    rcases first.atPause (k := 6) rfl with
      ⟨_, same, rfl, rfl⟩ | ⟨_, _, _, _, _, _, same, applied, second⟩
    · cases same
      cases raised
    · cases same
      cases applied
      rcases second.atPause (k := 6) rfl with
        ⟨_, same, rfl, rfl⟩ | ⟨_, _, _, _, _, _, same, applied, _⟩
      · cases same
        cases raised
      · cases same
        cases applied
  have run : apply 11 (.parser (.made 0) (.block [] guarded)) (.str ['a', 'b']) .empty =
    (.raised (.raised .callback ['!']), ⟨#[], #[.note (.str ['a']), .note (.str ['.'])], 0⟩) := rfl
  exact cleanupsRunOnce calm run nofun

end ParseKit.Script
