import ParseKit.Proofs.Block.Generator
import ParseKit.Proofs.Block.Yield

/-! Blocks without protected parts are chains of sequenced parsers: what follows a yield is
the function of its value that `Parser.bind` takes, a return is `Parser.ret`, and falling off
the end returns nothing. Main statement: a block and its chain end on the same inputs, with the
same outcome or fault and the same store, its events included. -/
namespace ParseKit.Script
open Eff (Below)

def Value.isOutcome : Value → Bool
  | .failure | .success .. => true
  | _ => false

theorem giveOutcome (p : Parser Value Store Value) (x : Value) :
    (give p x).Gives fun r => r.isOutcome = true :=
  .after fun o => .done (by cases o <;> rfl)

abbrev Next : Type := Env → Parser Value Store Value

section
variable (eval : Env → Expr → Run Value) (apply : Applier)

def loopChain (test : Expr) (body : Next → Next) (next : Next) : (limit : Nat) → Next
  | 0 => fun _ _ => Eff.exhausted
  | limit + 1 => fun env x => do
    if (← eval env test).isTrue then body (loopChain test body next limit) env x
    else next env x

def eachChain (y : String) (body : Next → Next) (next : Next) : (items : List Value) → Next
  | [] => next
  | v :: items => fun env => body (eachChain y body next items) (env.set y v)

variable (limit : Nat)

mutual

def Stmt.chain : Stmt → Next → Next
  | .yield parser (some y), next => fun env x => do
    let p ← eval env parser
    (readWith apply "bind" p).bind (fun v => next (env.set y v)) x
  | .yield parser none, next => fun env x => do
    let p ← eval env parser
    (readWith apply "bind" p).bind (fun _ => next env) x
  | .assign y value, next => fun env x => do next (env.set y (← eval env value)) x
  | .ret value, _ => fun env x => do Parser.ret (← eval env value) x
  | .log value, next => fun env x => do
    Run.note (← eval env value)
    next env x
  | .raise message kind, _ => fun env _ => do Eff.raise (.raised kind (← eval env message).plain)
  | .cond test yes no, next => fun env x => do
    if (← eval env test).isTrue then chainAll yes next env x else chainAll no next env x
  | .loop test body, next => loopChain eval test (chainAll body) next limit
  | .forEach y items body, next => fun env x => do
    let vs ← Eff.ofExcept (← eval env items).elements
    eachChain y (chainAll body) next vs env x
  | .protect .., _ => fun _ _ => Eff.exhausted

def chainAll : List Stmt → Next → Next
  | [], next => next
  | s :: body, next => s.chain (chainAll body next)

end

end

theorem yieldChain {eval : Env → Expr → Run Value} {apply : Applier} {limit : Nat} {next : Next}
    (parser : Expr) (into : Option String) (env : Env) (x : Value) :
    (Stmt.yield parser into).chain eval apply limit next env x = eval env parser >>= fun p =>
      (readWith apply "bind" p).bind (fun v => next (env.receive into v)) x := by
  cases into <;> rfl

def NextBelow (f g : Next) : Prop := ∀ env, Parser.Below (f env) (g env)

section
variable {e f : Env → Expr → Run Value}

theorem loopChainBelow (evals : EvalBelow e f) (test : Expr) {body body' : Next → Next}
    (bodies : ∀ {next next'}, NextBelow next next' → NextBelow (body next) (body' next'))
    {next next' : Next} (tail : NextBelow next next') {m n : Nat} (le : m ≤ n) :
    NextBelow (loopChain e test body next m) (loopChain f test body' next' n) := by
  induction m generalizing n with
  | zero => exact fun _ _ => .exhausted _
  | succ m ih =>
    cases n with
    | zero => omega
    | succ n =>
      have le : m ≤ n := by omega
      intro env x
      refine (evals env test).bind fun v => ?_
      split
      · exact bodies (ih le) env x
      · exact tail env x

theorem eachChainBelow (y : String) {body body' : Next → Next}
    (bodies : ∀ {next next'}, NextBelow next next' → NextBelow (body next) (body' next'))
    {next next' : Next} (tail : NextBelow next next') (items : List Value) :
    NextBelow (eachChain y body next items) (eachChain y body' next' items) := by
  induction items with
  | nil => exact tail
  | cons v items ih => exact fun env => bodies ih (env.set y v)

mutual

theorem chainBelow (evals : EvalBelow e f) {a b : Applier} (applies : ApplierBelow a b)
    {m n : Nat} (le : m ≤ n) {next next' : Next} (tail : NextBelow next next') :
    (s : Stmt) → NextBelow (s.chain e a m next) (s.chain f b n next')
  | .yield parser (some _) | .yield parser none => fun env x =>
    (evals env parser).bind fun p => ((readWithBelow applies "bind" p).bind fun _ => tail _) x
  | .assign _ value => fun env x => (evals env value).bind fun _ => tail _ x
  | .ret value => fun env _ => (evals env value).bind fun _ => .refl _
  | .log value => fun env x => (evals env value).bind fun _ => (Below.refl _).bind fun _ => tail env x
  | .raise message _ => fun env _ => (evals env message).bind fun _ => .refl _
  | .cond test yes no => fun env x => (evals env test).bind fun v => by
    split
    · exact chainAllBelow evals applies le tail yes env x
    · exact chainAllBelow evals applies le tail no env x
  | .loop test body =>
    loopChainBelow evals test (fun tail => chainAllBelow evals applies le tail body) tail le
  | .forEach y items body => fun env x =>
    (evals env items).bind fun _ => (Below.refl _).bind fun vs =>
      eachChainBelow y (fun tail => chainAllBelow evals applies le tail body) tail vs env x
  | .protect .. => fun _ _ => .refl _

theorem chainAllBelow (evals : EvalBelow e f) {a b : Applier} (applies : ApplierBelow a b)
    {m n : Nat} (le : m ≤ n) {next next' : Next} (tail : NextBelow next next') :
    (body : List Stmt) → NextBelow (chainAll e a m body next) (chainAll f b n body next')
  | [] => tail
  | s :: body => chainBelow evals applies le (chainAllBelow evals applies le tail body) s

end

end

section
variable {eval : Env → Expr → Run Value} {apply : Applier}

/-- What the run regular are parsers that answer with outcomes, and no statement of it raises a
fault that generators do not let out as it is. -/
structure Regular (eval : Env → Expr → Run Value) (apply : Applier) (env : Env)
    (stack : List Frame) (x : Value) (w : Store) : Prop where
  parsers : ∀ v position y w', Yields eval (readParts apply) env stack x w v position y w' →
    (∃ mark g, v = .parser mark g) ∧ ∀ r w'', apply v y w' = (.done r, w'') → r.isOutcome = true
  faults : ∀ fault, Throws eval (readParts apply) env stack x w fault → fault.leaving = fault

theorem Regular.yielded {k : Nat} {mark : Mark} {g : Grammar} {into : Option String}
    {position : Position} {env : Env} {stack : List Frame} {x : Value} {w w' : Store}
    (paused : advance eval k env stack w = (.done (.yielded (.parser mark g) into position), w'))
    (answers : ∀ r w'', apply (.parser mark g) x w' = (.done r, w'') → r.isOutcome = true)
    (tail : ∀ a rest w'', readParts apply (.parser mark g) x w' = (.done (.success a rest), w'') →
      Regular eval apply (position.env.receive into a) position.stack rest w'') :
    Regular eval apply env stack x w := by
  refine ⟨fun v place y w1 found => ?_, fun fault found => ?_⟩
  · rcases found.atPause paused with
      ⟨_, same, rfl, rfl⟩ | ⟨_, _, _, _, _, _, same, applied, further⟩
    · cases same
      exact ⟨⟨mark, g, rfl⟩, answers⟩
    · cases same
      exact (tail _ _ _ applied).parsers _ _ _ _ further
  · obtain ⟨_, _, _, _, _, _, same, applied, further⟩ := found.atPause paused
    cases same
    exact (tail _ _ _ applied).faults _ further

theorem Regular.returned {k : Nat} {v : Value} {env : Env} {stack : List Frame} {x : Value}
    {w w' : Store} (paused : advance eval k env stack w = (.done (.returned v), w')) :
    Regular eval apply env stack x w := by
  refine ⟨fun u place y w1 found => ?_, fun fault found => ?_⟩
  · rcases found.atPause paused with ⟨_, same, _⟩ | ⟨_, _, _, _, _, _, same, _⟩
    · cases same
    · cases same
  · obtain ⟨_, _, _, _, _, _, same, _⟩ := found.atPause paused
    cases same

theorem Regular.later {n : Nat} {mark : Mark} {g : Grammar} {into : Option String}
    {position : Position} {env : Env} {stack : List Frame} {x a rest : Value} {w w' w'' : Store}
    (regular : Regular eval apply env stack x w)
    (paused : advance eval n env stack w = (.done (.yielded (.parser mark g) into position), w'))
    (applied : readParts apply (.parser mark g) x w' = (.done (.success a rest), w'')) :
    Regular eval apply (position.env.receive into a) position.stack rest w'' :=
  ⟨fun v place y w1 found => regular.parsers v place y w1 (.later paused rfl applied found),
    fun fault found => regular.faults fault (.later paused rfl applied found)⟩

theorem Regular.going {env env' : Env} {stack stack' : List Frame} {x : Value} {w w' : Store}
    (regular : Regular eval apply env stack x w)
    (step : progress eval env stack w = (.done (.going env' stack'), w')) :
    Regular eval apply env' stack' x w' :=
  ⟨fun v position y w'' found => regular.parsers v position y w'' (found.going step),
    fun fault found => regular.faults fault (found.going step)⟩

theorem readAlike {mark : Mark} {g : Grammar} {x : Value} {w : Store} (operation : String)
    (answers : ∀ r w', apply (.parser mark g) x w = (.done r, w') → r.isOutcome = true) :
    readParts apply (.parser mark g) x w = readWith apply operation (.parser mark g) x w := by
  refine Eff.bindCongrAt (x := apply (.parser mark g) x) fun r w' run => ?_
  have outcome := answers r w' run
  cases r with
  | failure => rfl
  | success a rest => rfl
  | _ => cases outcome

/- Wherever `next` ends and the run from `stack` regular parsers, the run ends alike. -/
def Driven (eval : Env → Expr → Run Value) (apply : Applier) (next : Next)
    (stack : List Frame) : Prop :=
  ∀ env x w exit w', exit ≠ .exhausted → Regular eval apply env stack x w →
    next env x w = (exit, w') → ∃ n, drive eval (readParts apply) n env stack x w = (exit, w')

theorem Driven.going {next : Next} {env env' : Env} {stack stack' : List Frame} {x : Value}
    {w w' w'' : Store} {exit : Exit (Outcome Value Value)} (driven : Driven eval apply next stack')
    (step : progress eval env stack w = (.done (.going env' stack'), w'))
    (ended : exit ≠ .exhausted) (regular : Regular eval apply env stack x w)
    (run : next env' x w' = (exit, w'')) :
    ∃ n, drive eval (readParts apply) n env stack x w = (exit, w'') := by
  obtain ⟨n, ends⟩ := driven _ _ _ _ _ ended (regular.going step) run
  exact ⟨n + 1, driveGoing step ends ended⟩

theorem driveThrown {fault : Fault} {env : Env} {stack : List Frame} {x : Value} {w w' : Store}
    (regular : Regular eval apply env stack x w)
    (thrown : progress eval env stack w = (.raised fault, w')) :
    drive eval (readParts apply) 2 env stack x w = (.raised fault, w') := by
  have out : fault.leaving = fault :=
    regular.faults fault (.here (n := 1) (Eff.bindOfRaised thrown))
  have ends : drive eval (readParts apply) 2 env stack x w = (.raised fault.leaving, w') :=
    driveRaised thrown
  rwa [out] at ends

theorem drivenAfter {α : Type} {first : Run α} {further : α → Run Progress}
    {rest : α → Run (Outcome Value Value)} {env : Env} {stack : List Frame} {x : Value}
    {w v w' : Store} {exit : Exit (Outcome Value Value)}
    (step : progress eval env stack w = (first >>= further) v)
    (regular : Regular eval apply env stack x w)
    (run : (first >>= rest) v = (exit, w')) (ended : exit ≠ .exhausted)
    (tail : ∀ a w1, progress eval env stack w = further a w1 → rest a w1 = (exit, w') →
      ∃ n, drive eval (readParts apply) n env stack x w = (exit, w')) :
    ∃ n, drive eval (readParts apply) n env stack x w = (exit, w') := by
  rcases Eff.bindEnds run ended with ⟨a, w1, head, run⟩ | ⟨fault, raised, rfl⟩
  · exact tail a w1 (step.trans (Eff.bindOfDone head)) run
  · have thrown := step.trans (Eff.bindOfRaised raised)
    exact ⟨2, (driveThrown regular thrown)⟩

theorem loopDriven {test : Expr} {body : List Stmt} {bodyChain : Next → Next} {next : Next}
    {stack : List Frame} (bare : stack.all Frame.unprotected = true)
    (inner : ∀ {next}, Driven eval apply next (.loop test body :: stack) →
      Driven eval apply (bodyChain next) (.statements body :: .loop test body :: stack))
    (driven : Driven eval apply next stack) (limit : Nat) :
    Driven eval apply (loopChain eval test bodyChain next limit) (.loop test body :: stack) := by
  induction limit with
  | zero =>
    intro env x w exit w' ended regular run
    cases run
    exact absurd rfl ended
  | succ limit ih =>
    intro env x w exit w' ended regular run
    refine drivenAfter (congrFun (progressLoop bare test body) w) regular run ended
      fun v w1 moved run => ?_
    cases truth : v.isTrue with
    | true =>
      rw [truth] at moved run
      exact (inner ih).going moved ended regular run
    | false =>
      rw [truth] at moved run
      exact driven.going moved ended regular run

theorem eachDriven {y : String} {body : List Stmt} {bodyChain : Next → Next} {next : Next}
    {stack : List Frame}
    (inner : ∀ {next items}, Driven eval apply next (.forEach y items body :: stack) →
      Driven eval apply (bodyChain next) (.statements body :: .forEach y items body :: stack))
    (driven : Driven eval apply next stack) (items : List Value) :
    Driven eval apply (eachChain y bodyChain next items) (.forEach y items body :: stack) := by
  induction items with
  | nil => exact fun _ _ _ _ _ ended regular run => driven.going rfl ended regular run
  | cons v items ih => exact fun _ _ _ _ _ ended regular run => (inner ih).going rfl ended regular run

theorem yieldDriven {next : Next} {body : List Stmt} {stack : List Frame}
    (bare : (Frame.statements body :: stack).all Frame.unprotected = true)
    (driven : Driven eval apply next (.statements body :: stack)) (limit : Nat) (parser : Expr)
    (into : Option String) :
    Driven eval apply ((Stmt.yield parser into).chain eval apply limit next)
      (.statements (.yield parser into :: body) :: stack) := by
  intro env x w exit w' ended regular run
  rw [yieldChain] at run
  refine drivenAfter (congrFun (progressYield bare parser into) w) regular run ended
    fun v w1 moved run => ?_
  have paused : advance eval 1 env (.statements (.yield parser into :: body) :: stack) w =
    (.done (.yielded v into ⟨env, .statements body :: stack⟩), w1) := Eff.bindOfDone moved
  obtain ⟨⟨mark, g, rfl⟩, answers⟩ := regular.parsers v _ x w1 (.next paused)
  have alike := readAlike "bind" answers
  rcases Eff.bindEnds (x := readWith apply "bind" (.parser mark g) x) run ended with
    ⟨o, w2, applied, run⟩ | ⟨fault, raised, rfl⟩
  · have applied := alike.trans applied
    cases o with
    | failure =>
      have left : fromGenerator (leaveThen eval ⟨env, .statements body :: stack⟩ (pure .failure)) w2 =
          (exit, w') := by
        rw [leaveThenUnprotected bare]
        exact run
      exact ⟨2, (drivePaused moved 0).trans ((Eff.bindOfDone applied).trans left)⟩
    | success a rest =>
      obtain ⟨n, ends⟩ := driven _ _ _ _ _ ended (regular.later paused applied) run
      have more := (driveBelow (.refl eval) (fun v => .refl _) (Nat.le_succ n) _ _ _).ends ends ended
      exact ⟨n + 2, (drivePaused moved n).trans ((Eff.bindOfDone applied).trans more)⟩
  · exact ⟨2, (drivePaused moved 0).trans (Eff.bindOfRaised (alike.trans raised))⟩

mutual

theorem chainDriven {limit : Nat} {next : Next} {body : List Stmt} {stack : List Frame}
    (bare : (Frame.statements body :: stack).all Frame.unprotected = true)
    (driven : Driven eval apply next (.statements body :: stack)) :
    (s : Stmt) → s.unprotected = true →
      Driven eval apply (s.chain eval apply limit next) (.statements (s :: body) :: stack)
  | .yield parser into, _ => yieldDriven bare driven limit parser into
  | .assign y value, _ => by
    intro env x w exit w' ended regular run
    refine drivenAfter (congrFun (progressAssign bare y value) w) regular run ended
      fun v w1 moved run => ?_
    exact driven.going moved ended regular run
  | .ret value, _ => by
    intro env x w exit w' ended regular run
    refine drivenAfter (congrFun (progressReturn bare value) w) regular run ended
      fun v w1 moved run => ?_
    exact ⟨2, (drivePaused moved 0).trans run⟩
  | .log value, _ => by
    intro env x w exit w' ended regular run
    refine drivenAfter (congrFun (progressLog bare value) w) regular run ended fun v w1 moved run => ?_
    exact driven.going moved ended regular run
  | .raise message kind, _ => by
    intro env x w exit w' ended regular run
    refine drivenAfter (congrFun (progressRaise bare message kind) w) regular run ended
      fun v w1 moved run => ?_
    cases run
    exact ⟨2, driveThrown regular moved⟩
  | .cond test yes no, inside => by
    intro env x w exit w' ended regular run
    have parts := Bool.and_eq_true_iff.mp inside
    refine drivenAfter (congrFun (progressCond bare test yes no) w) regular run ended
      fun v w1 moved run => ?_
    cases truth : v.isTrue with
    | true =>
      rw [truth] at moved run
      exact (chainAllDriven bare driven yes parts.1).going moved ended regular run
    | false =>
      rw [truth] at moved run
      exact (chainAllDriven bare driven no parts.2).going moved ended regular run
  | .loop test each, inside => by
    intro env x w exit w' ended regular run
    have after : (Frame.loop test each :: .statements body :: stack).all Frame.unprotected = true :=
      Bool.and_eq_true_iff.mpr ⟨inside, bare⟩
    exact (loopDriven bare (fun driven => chainAllDriven after driven each inside) driven
      limit).going rfl ended regular run
  | .forEach y items each, inside => by
    intro env x w exit w' ended regular run
    have after : ∀ vs, (Frame.forEach y vs each :: .statements body :: stack).all
        Frame.unprotected = true := fun vs => Bool.and_eq_true_iff.mpr ⟨inside, bare⟩
    refine drivenAfter (congrFun (progressForEach bare y items each) w) regular run ended
      fun v w1 listing run => ?_
    refine drivenAfter listing regular run ended fun vs w2 moved run => ?_
    exact (eachDriven (fun driven => chainAllDriven (after _) driven each inside) driven vs).going
      moved ended regular run
  | .protect .., inside => nomatch inside

theorem chainAllDriven {limit : Nat} {next : Next} {stack : List Frame}
    (bare : stack.all Frame.unprotected = true) (driven : Driven eval apply next stack) :
    (body : List Stmt) → allUnprotected body = true →
      Driven eval apply (chainAll eval apply limit body next) (.statements body :: stack)
  | [], _ => fun _ _ _ _ _ ended regular run => driven.going rfl ended regular run
  | s :: body, inside => by
    have parts := Bool.and_eq_true_iff.mp inside
    have after : (Frame.statements body :: stack).all Frame.unprotected = true :=
      Bool.and_eq_true_iff.mpr ⟨parts.2, bare⟩
    exact chainDriven after (chainAllDriven bare driven body parts.2) s parts.1

end

end

end ParseKit.Script
