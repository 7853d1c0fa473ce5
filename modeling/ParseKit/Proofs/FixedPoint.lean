import ParseKit.Proofs.Exchange.Unfolding

/-! Shared parsers as fixed points. A name stands for a shared parser in one world, and in the other
one for what the expression of that parser gives, in all that is linked to the bindings. -/
namespace ParseKit.Script
open Eff (Below)
open Filter (Eventually atTop)

def Refusal.seen : Refusal Value → Refusal Value
  | .incomplete message input => .incomplete message input.seen
  | .mismatch input source => .mismatch input.seen source
  | .leftover input rest source => .leftover input.seen rest.seen source

def StepResult.seen : StepResult → StepResult
  | .front v => .front v.seen
  | .whole (.ok v) => .whole (.ok v.seen)
  | .whole (.error r) => .whole (.error (Refusal.seen r))

def seenExit : Exit StepResult → Exit StepResult
  | .done r => .done r.seen
  | exit => exit

def Answer.seen (answer : Answer StepResult) : Answer StepResult :=
  ⟨seenExit answer.exit, answer.events.map Event.seen⟩

theorem leftSeen (before : Text) (exit : Exit StepResult) :
    leftAfter before (seenExit exit) = leftAfter before exit := by
  rcases exit with ⟨v | ⟨v | r⟩⟩ | fault | _
  · cases v with
    | success v rest => cases rest <;> rfl
    | _ => rfl
  all_goals rfl

def Step.runWary (limit : Nat) (env : Env) (step : Step) (text : Text) : Run StepResult := do
  let p ← evalMarked .clear (callWary limit) env step.parser
  step.readBy (applyBy (callWary limit)) p text

def sessionWary (limit : Nat) (env : Env) : Store → Text → List Step → List (Answer StepResult) :=
  sessionRun (Step.runWary limit env)

theorem wariesBelow {m n : Nat} (le : m ≤ n) (env : Env) (step : Step) (text : Text) :
    Below (step.runWary m env text) (step.run (callAnew n) env text) := by
  have calls : CallerBelow (callWary m) (callAnew n) := fun f args named =>
    (callWaryBelow m f args named).trans (callAnewBelow le f args named)
  rw [Step.runReads]
  exact (evalCheckedBelow calls env step.parser).bind fun p =>
    readsBelow (fun p x => calls p [x] []) step p text

section
variable (X : Exchange)

inductive StepResult.Alike : StepResult → StepResult → Prop where
  | front {v v' : Value} (alike : v.Alike X v') : Alike (.front v) (.front v')
  | value {v v' : Value} (alike : v.Alike X v') : Alike (.whole (.ok v)) (.whole (.ok v'))
  | mismatch (input : Value) (source : Text) :
      Alike (.whole (.error (.mismatch input source))) (.whole (.error (.mismatch input source)))
  | leftover (input : Value) (source : Text) {rest rest' : Value} (left : rest.Alike X rest') :
      Alike (.whole (.error (.leftover input rest source)))
        (.whole (.error (.leftover input rest' source)))

end

section
variable {X : Exchange} {K : Accord X}

theorem StepResult.Alike.seen {r r' : StepResult} (alike : r.Alike X r') : r.seen = r'.seen := by
  cases alike with
  | front alike => exact congrArg StepResult.front alike.seen
  | value alike => exact congrArg (StepResult.whole ∘ Except.ok) alike.seen
  | mismatch => rfl
  | leftover input source left =>
    exact congrArg (fun rest => StepResult.whole (.error (.leftover input.seen rest source))) left.seen

theorem wholeAlong {a : Applier} {b : Nat → Applier} (applies : AppliersAlong K a b) {p p' : Value}
    (parsers : p.Alike X p') (source text : Text) :
    Along K (fun r r' => (StepResult.whole r).Alike X (.whole r')) (wholeBy a p source (.str text))
      (fun n => wholeBy (b n) p' source (.str text)) :=
  (readRestAlong applies parsers .only _ _ trivial (.str text)).bind fun o o' alike => by
    cases o <;> cases o' <;> try exact alike.elim
    · exact (Along.record _).bind fun _ _ _ => .done (.mismatch (.str text) source)
    · rename_i v rest v' rest'
      have truth : Shown.isEnd rest = Shown.isEnd rest' := congrArg not alike.2.truth
      have quoted : (Shown.quoted rest : Text) = Shown.quoted rest' :=
        Value.sameOfSeen Value.displaySeen alike.2.seen
      dsimp only
      rw [truth, quoted]
      split
      · exact .done (.value alike.1)
      · exact (Along.record _).bind fun _ _ _ => .done (.leftover (.str text) source alike.2)

theorem readsAlong {a : Applier} {b : Nat → Applier} (applies : AppliersAlong K a b) (step : Step)
    {p p' : Value} (parsers : p.Alike X p') (text : Text) :
    Along K (StepResult.Alike X) (step.readBy a p text) (fun n => step.readBy (b n) p' text) := by
  unfold Step.readBy
  cases step.whole with
  | none =>
    refine (applies parsers (.str text)).bind fun v v' alike => ?_
    have answer : Along K (Value.Alike X) (checked v) (fun _ => checked v') :=
      (Along.ofResult (alike.outcome "value")).bind fun _ _ _ => .done alike
    exact answer.bind fun _ _ alike => .done (.front alike)
  | some source =>
    exact (wholeAlong applies parsers source text).bind fun _ _ alike => .done alike

end

section
variable {t : Thunk} {side : Side} {m : Nat} {env env' : Env}
  (bound : env.Alike (t.exchange side) env')
include bound

theorem stepAlong (step : Step) (text : Text) :
    Along (t.accord side) (StepResult.Alike (t.exchange side)) (step.runWary m env text)
      (fun k => step.run (callAnew (k + m)) env' text) := by
  have evaluated := evalsAlong (Thunk.callsAlong m) step.parser bound
  rw [show (t.exchange side).onRight = .clear from rfl, Expr.meantClear] at evaluated
  exact evaluated.bind fun _ _ parsers =>
    readsAlong (appliersAlong (Thunk.callsAlong m)) step parsers text

omit bound in
theorem nothingLone (label : Text) : ¬ (t.exchange side).LoneLeft label := by
  rintro ⟨_, _, _, point, _⟩
  cases point

omit bound in
theorem joinedSteps {p q : Exit StepResult × Store}
    (joined : Joined (t.accord side) (StepResult.Alike (t.exchange side)) p q) :
    q.1 ≠ .exhausted ∧ seenExit p.1 = seenExit q.1 ∧ (t.accord side).agree p.2 q.2 := by
  cases joined with
  | done agree alike => exact ⟨nofun, congrArg Exit.done alike.seen, agree⟩
  | raised agree => exact ⟨nofun, rfl, agree⟩

theorem sessionAlong {a s : Store}
    (cells : ∀ id, Option.Rel (Cell.Alike (t.exchange side)) (a.cell? id) (s.cell? id))
    (there : t.At side a s) (left : Text) (steps : List Step)
    (ends : ∀ answer ∈ sessionWary m env a left steps, answer.exit ≠ .exhausted) :
    ∃ answers, (∀ᶠ n in atTop, sessionFrom (callAnew n) env' s left steps = answers) ∧
      (∀ answer ∈ answers, answer.exit ≠ .exhausted) ∧
        (sessionWary m env a left steps).map Answer.seen = answers.map Answer.seen := by
  induction steps generalizing a s left with
  | nil => exact ⟨[], .of_forall fun _ => rfl, nofun, rfl⟩
  | cons step steps ih =>
    obtain ⟨here, others⟩ := List.forall_mem_cons.mp ends
    have agree : (t.accord side).agree ⟨a.cells, #[], .outer .stepping 0 0⟩
        ⟨s.cells, #[], .outer .stepping 0 0⟩ :=
      ⟨⟨rfl, cells, .nil⟩, there.to (fun found => ⟨found.cell, found.cells⟩)
        (fun found => ⟨found.cell, found.cells⟩), 0, 0, rfl⟩
    obtain ⟨q, same, joined⟩ := stepAlong bound step (step.input left) _ _ agree here
    obtain ⟨ended, exits, after⟩ := joinedSteps joined
    have lefts := congrArg (leftAfter left) exits
    rw [leftSeen, leftSeen] at lefts
    obtain ⟨answers, later, ended', seen⟩ := ih after.1.cells after.2.1 _ others
    refine ⟨⟨q.1, q.2.events.toList⟩ :: answers, ?_, List.forall_mem_cons.mpr ⟨ended, ended'⟩,
      congrArg₂ List.cons ?_ seen⟩
    · replace same : ∀ᶠ n in atTop, step.run (callAnew n) env' (step.input left)
          ⟨s.atStep.cells, #[], s.atStep.name⟩ = q := by
        rw [← Filter.map_add_atTop_eq_nat m]
        exact same
      filter_upwards [same, later] with n run more
      have answered : step.answered (callAnew n) env' (step.input left) s =
          (⟨q.1, q.2.events.toList⟩, q.2) := by
        unfold Step.answered Run.answerFrom
        rw [run]
      rw [sessionCons, answered]
      exact congrArg _ (lefts ▸ more)
    · exact congrArg₂ Answer.mk exits (toldSeen nothingLone nothingLone after.1.events)

end

section
variable {X : Exchange}

theorem Env.setFound {env : Env} {x : String} {v : Value} (found : env.find? x = some v) :
    env.set x v = env := by
  induction env with
  | nil => cases found
  | cons bound env ih =>
    simp only [Env.find?] at found
    simp only [Env.set]
    split at found
    · rename_i same
      rw [if_pos same, ← Option.some.inj found, beq_iff_eq.mp same]
    · rename_i other
      rw [if_neg other, ih found]

theorem Env.Alike.other (itself : X.Reflexive) {v v' : Value} (alike : v.Alike X v')
    (x : String) (env : Env) : Env.Alike X (env.set x v) (env.set x v') :=
  .set x alike (Env.alikeItself itself env)

namespace Program

theorem linkAlike (itself : X.Reflexive) {env env' : Env} (bound : env.Alike X env')
    (ids : List Name) {w : Store} (empty : ∀ id c, w.cell? id = some c → c.built = none) (id : Name) :
    Option.Rel (Cell.Alike X) ((link ids env w).cell? id) ((link ids env' w).cell? id) := by
  rw [cellLinked, cellLinked]
  cases found : w.cell? id with
  | none => exact .none
  | some c =>
    have linked {e e' : Env} (alike : e.Alike X e') :
        Cell.Alike X { c with env := e } { c with env := e' } := by
      refine ⟨itself.cells _, rfl, ?_, alike, ?_⟩
      · rw [itself.clear, Expr.meantClear]
      · rw [empty id c found]
        exact .none
    simp only [Option.map_some]
    split
    · exact .some (linked bound)
    · exact .some (linked (Env.alikeItself itself c.env))

theorem linkSame {ids : List Name} {env : Env} {w : Store}
    (linked : ∀ id ∈ ids, ∀ c, w.cell? id = some c → c.env = env) (id : Name) :
    (link ids env w).cell? id = w.cell? id := by
  rw [cellLinked]
  cases found : w.cell? id with
  | none => rfl
  | some c =>
    simp only [Option.map_some]
    split
    · rename_i inside
      rw [← linked c.name (by simpa using inside) c (Store.cellNamed found ▸ found)]
    · rfl

end Program

structure World (env : Env) (w : Store) : Prop where
  closed : w.Closed
  empty : ∀ id c, w.cell? id = some c → c.built = none
  based : Over w.known env

theorem World.link {env : Env} {w : Store} (world : World env w) (ids : List Name) {env' : Env}
    (based : Over w.known env') : World env' (Program.link ids env' w) := by
  obtain ⟨closed, same⟩ := Program.linkClosed world.closed ids based
  refine ⟨closed, fun id c found => ?_, same ▸ based⟩
  rw [Program.cellLinked] at found
  obtain ⟨d, there, rfl⟩ := Option.map_eq_some_iff.mp found
  split <;> exact world.empty id d there

section
variable {env : Env} {w : Store} (world : World env w) {left : Text} {steps : List Step}
include world

theorem World.answering {answers : List (Answer StepResult)}
    (afresh : ∀ᶠ n in atTop, sessionFrom (callAnew n) env w left steps = answers)
    (ends : ∀ answer ∈ answers, answer.exit ≠ .exhausted) : Answering env w left steps answers := by
  have both : ∀ᶠ n in atTop, sessionFrom (callPlainly true n) env w left steps = answers ∧
      List.Forall₂ (Comparable false true) (sessionFrom (call n) env w left steps) answers := by
    filter_upwards [afresh] with n same
    subst same
    exact sessionsAnew world.closed world.empty world.based left steps ends
  exact ⟨ends, both.mono fun _ => And.left, both.mono fun _ => And.right⟩

theorem World.warily {m : Nat}
    (ends : ∀ answer ∈ sessionWary m env w left steps, answer.exit ≠ .exhausted) :
    Answering env w left steps (sessionWary m env w left steps) := by
  refine world.answering ?_ ends
  filter_upwards [Filter.eventually_ge_atTop m] with n enough
  rw [sessionIsRun]
  exact sessionBelow (wariesBelow enough env) w left steps ends

end
end

section
variable {base made : Store} {env : Env} {x : String} {mark : Mark} {id : Name} {b : Value}
  {limit : Nat}

structure Evaluated (env : Env) (made : Store) (id : Name) (b : Value) : Prop where
  world : World env made
  based : Over made.known b
  thunk : ∃ t : Thunk, t.cell.name = id ∧ t.parser = b ∧ t.In made

theorem evaluatedOnce (preparing : base.Preparing) (bound : Over base.known env)
    (unbuilt : ∀ c ∈ base.cells.toList, c.built = none)
    (shared : env.find? x = some (.parser mark (.shared id)))
    (run : renew (evalWith (callFunction limit)) id base.atStep = (.done b, made))
    (isParser : b.isParser = true) : Evaluated env made id b := by
  have there : id ∈ base.known := by
    simpa using Env.findOver bound x _ shared
  obtain ⟨c, found⟩ := Option.isSome_iff_exists.mp there
  rcases built : buildPlainly limit c base.atStep with ⟨exit, after⟩
  have renewing := renewed (a := base.atStep) found rfl built
  rw [run] at renewing
  obtain ⟨rfl, rfl⟩ := Prod.mk.inj renewing
  obtain ⟨t, events, name, rfl, rfl, rfl, closed, based⟩ := thunkOfRun (w := base.atStep)
    preparing.closed (preparing.closed id c found).1
    (Store.cellNamed found ▸ preparing.cells id there) isParser built
  obtain rfl := Store.cellNamed found
  refine ⟨⟨closed, fun j d last => ?_, Cellular.grow (Store.knownAdding ..) bound⟩, based,
    t, rfl, rfl, (t.fresh.itself base.atStep events name).trans found, fun j d last => ?_⟩
  · rw [Store.cellNaming, Store.cellAdding] at last
    cases here : latest t.cells j with
    | some e =>
      rw [here] at last
      obtain rfl := Option.some.inj last
      exact (t.fresh e (latestMem here).1).1
    | none =>
      rw [here] at last
      exact unbuilt d (latestMem last).1
  · rw [Store.cellNaming, Store.cellAdding, last, Option.some_or]

/-- A shared parser is a fixed point of its expression. -/
theorem sharedIsFixedPoint {p : Program} {most less : Nat} {ids : List Name}
    (prepared : p.prepare most .empty = (.done env, base))
    (unbuilt : ∀ c ∈ base.cells.toList, c.built = none)
    (shared : env.find? x = some (.parser mark (.shared id)))
    (evaluated : renew (evalWith (callFunction limit)) id base.atStep = (.done b, made))
    (isParser : b.isParser = true)
    (linked : ∀ j ∈ ids, ∀ c, made.cell? j = some c → c.env = env)
    (left : Text) (steps : List Step)
    (ends : (∀ answer ∈ sessionWary less env made left steps, answer.exit ≠ .exhausted) ∨
      ∀ answer ∈ sessionWary less (env.set x b) (Program.link ids (env.set x b) made) left steps,
        answer.exit ≠ .exhausted) :
    ∃ folded unfolded : List (Answer StepResult),
      Answering env made left steps folded ∧
      Answering (env.set x b) (Program.link ids (env.set x b) made) left steps unfolded ∧
      folded.map Answer.seen = unfolded.map Answer.seen := by
  obtain ⟨preparing, bound⟩ := Program.prepareOver prepared
  obtain ⟨world, based, t, rfl, rfl, there⟩ :=
    evaluatedOnce preparing bound unbuilt shared evaluated isParser
  have world' : World (env.set x t.parser) (Program.link ids (env.set x t.parser) made) :=
    world.link ids (Env.setOver world.based x based)
  have same := Env.setFound shared
  have cells := Program.linkSame linked
  rcases ends with ends | ends
  · have stands : (t.exchange .left).swapped (.parser mark (.shared t.cell.name)) t.parser :=
      ⟨⟨mark, rfl⟩, rfl⟩
    have alike := Env.Alike.other (t.itself _) (.swapped stands) x env
    rw [same] at alike
    have linking := Program.linkAlike (t.itself _) alike ids world.empty
    simp only [cells] at linking
    obtain ⟨answers, afresh, ended, seen⟩ := sessionAlong alike linking there left steps ends
    exact ⟨_, answers, world.warily ends, world'.answering afresh ended, seen⟩
  · have stands : (t.exchange .right).swapped t.parser (.parser mark (.shared t.cell.name)) :=
      ⟨rfl, mark, rfl⟩
    have alike := Env.Alike.other (t.itself _) (.swapped stands) x env
    rw [same] at alike
    have linking := Program.linkAlike (t.itself _) alike ids world.empty
    simp only [cells] at linking
    obtain ⟨answers, afresh, ended, seen⟩ := sessionAlong alike linking there left steps ends
    exact ⟨answers, _, world.answering afresh ended, world'.warily ends, seen.symm⟩

end

def parensBody : Expr :=
  .binary .keepLeft
    (.binary .keepRight (.unary .char (.lit (.str ['(']))) (.unary .optional (.var "inner")))
    (.unary .char (.lit (.str [')'])))

def parens : Program := ⟨[("nest", parensBody)], [("inner", .var "nest")]⟩

def nestParser : Value := .parser (.made (.outer .preparing 0 1)) (.shared 0)

def parensBound : Env := [("nest", nestParser), ("inner", nestParser)]

def parensCell : Cell := ⟨0, none, parensBody, parensBound, none⟩

def parensBase : Store := ⟨#[parensCell], #[], .outer .preparing 1 1⟩

def parensGiven : Value :=
  let made (serial : Nat) := Mark.made (.inner 0 .stepping serial 0)
  .parser (made 4) (.keepLeft
    (.parser (made 2) (.keepRight (.parser (made 0) (.char (.str ['('])))
      (.parser (made 1) (.optional nestParser))))
    (.parser (made 3) (.char (.str [')']))))

def parensSteps : List Step := [
  ⟨.var "nest", some ['(', '(', ')', ')'], none⟩,
  ⟨.var "inner", some ['(', ')', 'x'], none⟩,
  ⟨.var "inner", none, some ['w']⟩]

theorem parensAreFixedPoint :
    parens.prepare 9 .empty = (.done parensBound, parensBase) ∧
    renew (evalWith (callFunction 9)) 0 parensBase.atStep = (.done parensGiven, parensBase.atStep) ∧
    (∀ answer ∈ sessionWary 12 parensBound parensBase.atStep [] parensSteps,
      (answer.exit matches .exhausted) = false) ∧
    ∃ folded unfolded : List (Answer StepResult),
      Answering parensBound parensBase.atStep [] parensSteps folded ∧
      Answering (parensBound.set "inner" parensGiven)
        (Program.link [0] (parensBound.set "inner" parensGiven) parensBase.atStep) [] parensSteps
        unfolded ∧
      folded.map Answer.seen = unfolded.map Answer.seen := by
  have prepared : parens.prepare 9 .empty = (.done parensBound, parensBase) := rfl
  have evaluated : renew (evalWith (callFunction 9)) 0 parensBase.atStep =
      (.done parensGiven, parensBase.atStep) := rfl
  have ends : ∀ answer ∈ sessionWary 12 parensBound parensBase.atStep [] parensSteps,
      (answer.exit matches .exhausted) = false := by decide +kernel
  have unbuilt : ∀ c ∈ parensBase.cells.toList, c.built = none := by decide +kernel
  have linked : ∀ id ∈ [(0 : Name)], ∀ c, parensBase.atStep.cell? id = some c →
      c.env = parensBound := by
    intro id mem c found
    have here : parensBase.atStep.cell? 0 = some parensCell := rfl
    rw [List.mem_singleton.mp mem, here] at found
    rw [← Option.some.inj found]
    rfl
  have ended : ∀ answer ∈ sessionWary 12 parensBound parensBase.atStep [] parensSteps,
      answer.exit ≠ .exhausted := by
    intro answer mem cut
    have here := ends answer mem
    rw [cut] at here
    cases here
  exact ⟨prepared, evaluated, ends, sharedIsFixedPoint prepared unbuilt rfl evaluated rfl linked
    [] parensSteps (.inl ended)⟩

end ParseKit.Script
