import Mathlib.Data.List.Forall2
import ParseKit.Proofs.History.Beside

/-! Sessions. A step finds cells that the steps before it have filled, and answers as it does when
it is the only step on parsers built afresh: the two runs are beside each other. What filling the
cells has put down is left out of both by a quiet evaluation. Main statement: where no parser is
applied while a cell is built, each step of a session answers as it does alone, and so do its steps
in whatever order and number. -/
namespace ParseKit.Script
open Eff (Below)

instance : Cellular StepResult := .plain _

def Step.readBy (apply : Applier) (step : Step) (p : Value) (text : Text) : Run StepResult :=
  match step.whole with
  | none => do return .front (← checked (← apply p (.str text)))
  | some source => do return .whole (← wholeBy apply p source (.str text))

theorem Step.runReads (call : Caller) (env : Env) (step : Step) (text : Text) :
    step.run call env text =
      evalWith call env step.parser >>= fun p => step.readBy (applyBy call) p text := rfl

section
variable {K : Coupling} {known : Set Name}

theorem wholeCoupled {a b : Applier} (applies : Appliers K a b) {p : Value}
    (parser : Over known p) (source text : Text) :
    Coupled K known (wholeBy a p source (.str text)) (wholeBy b p source (.str text)) :=
  (readRestParallel applies parser known (.str text) subset_rfl (by simp)).bind
    fun more o _ inside => by
      cases o with
      | failure => exact (Coupled.event _).bind fun _ _ _ _ => .done overError
      | success v rest =>
        dsimp only
        split
        · exact .done (overOk.mpr (overSuccess.mp inside).1)
        · exact (Coupled.event _).bind fun _ _ _ _ => .done overError

theorem readsCoupled {a b : Applier} (applies : Appliers K a b) (step : Step) {p : Value}
    (parser : Over known p) (text : Text) :
    Coupled K known (step.readBy a p text) (step.readBy b p text) := by
  unfold Step.readBy
  cases step.whole with
  | some source => exact (wholeCoupled applies parser source text).bind fun _ _ _ _ => .done trivial
  | none =>
    refine (applies known p (.str text) parser (by simp)).bind fun _ v _ inside => ?_
    have answer : Coupled K _ (checked v) (checked v) :=
      (Coupled.ofExcept (Value.outcomeOver inside "value")).bind fun _ _ sub _ =>
        .done (Cellular.grow sub inside)
    exact answer.bind fun _ _ _ _ => .done trivial

theorem appliersCoupled {c d : Caller} (calls : Callers K c d) :
    Appliers K (applyBy c) (applyBy d) := fun known p x parser input =>
  calls known p [x] [] parser (by simpa using input) (by simp)

theorem stepCoupled {c d : Caller} (calls : Callers K c d) {env : Env} (bound : Over known env)
    (step : Step) (text : Text) :
    Coupled K known (step.run c env text) (step.run d env text) := by
  rw [Step.runReads, Step.runReads]
  exact (evalCoupled calls step.parser known bound).bind fun _ _ _ parser =>
    readsCoupled (appliersCoupled calls) step parser text

end

theorem readsBelow {a b : Applier} (applies : ApplierBelow a b) (step : Step) (p : Value)
    (text : Text) : Below (step.readBy a p text) (step.readBy b p text) := by
  unfold Step.readBy
  cases step.whole with
  | some source =>
    have reads : Below (wholeBy a p source (.str text)) (wholeBy b p source (.str text)) :=
      (readByBelow applies (Value.outcome "remaining") p (.str text)).bind fun _ => .refl _
    exact reads.bind fun _ => .refl _
  | none => exact (applies p (.str text)).bind fun _ => .refl _

theorem stepBelow {c d : Caller} (calls : CallerBelow c d) (env : Env) (step : Step)
    (text : Text) : Below (step.run c env text) (step.run d env text) := by
  have applies : ApplierBelow (applyBy c) (applyBy d) := fun p x => calls p [x] []
  rw [Step.runReads, Step.runReads]
  exact (evalBelow calls env step.parser).bind fun p => readsBelow applies step p text

namespace Program

theorem bindEachBelow {c d : Caller} (calls : CallerBelow c d) (definitions : List Name) (env : Env)
    (bindings : List (String × Expr)) :
    Below (bindEachBy c definitions env bindings) (bindEachBy d definitions env bindings) := by
  induction bindings generalizing env with
  | nil => exact .refl _
  | cons binding more ih =>
    exact (Below.refl _).bind fun _ => (evalBelow calls env binding.2).bind fun _ => ih _

theorem prepareByBelow {c d : Caller} (calls : CallerBelow c d) (p : Program) :
    Below (p.prepareBy c) (p.prepareBy d) :=
  (Below.refl _).bind fun shared => bindEachBelow calls (cellsOf shared) shared p.bindings

theorem prepareBelow {m n : Nat} (le : m ≤ n) (p : Program) : Below (p.prepare m) (p.prepare n) :=
  prepareByBelow (callBelow le) p

end Program

def Step.answered (call : Caller) (env : Env) (step : Step) (text : Text) (store : Store) :
    Answer StepResult × Store := Run.answerFrom (step.run call env text) store.atStep

theorem sessionCons (call : Caller) (env : Env) (store : Store) (left : Text) (step : Step)
    (steps : List Step) :
    sessionFrom call env store left (step :: steps) =
      (step.answered call env (step.input left) store).1 ::
        sessionFrom call env (step.answered call env (step.input left) store).2
          (leftAfter left (step.answered call env (step.input left) store).1.exit) steps := rfl

def exits (answers : List (Answer StepResult)) : List (Exit StepResult) :=
  answers.map (·.exit)

def stepsOn (left : Text) : List Step → List (Answer StepResult) → List Step
  | step :: steps, answer :: answers =>
    { step with text := some (step.input left) } ::
      stepsOn (leftAfter left answer.exit) steps answers
  | _, _ => []

structure Comparable (quiet quiet' : Bool) (p q : Answer StepResult) : Prop where
  exit : p.exit = q.exit
  less : quiet' = true → q.events.Sublist p.events
  same : quiet = true → quiet' = true → p.events = q.events

theorem Comparable.equal {p q : Answer StepResult} (pair : Comparable true true p q) : p = q := by
  obtain ⟨exit, events⟩ := p
  obtain rfl : exit = q.exit := pair.exit
  obtain rfl : events = q.events := pair.same rfl rfl
  rfl

namespace Beside
variable {base a s : Store} {limit : Nat} (beside : Beside base limit a s)

theorem unused (preparing : base.Preparing) : Beside base limit base base :=
  ⟨.refl _, preparing.closed, .refl _, fun _ _ _ found _ => .inl found⟩

include beside

theorem afresh (preparing : base.Preparing) : Beside base limit base s :=
  ⟨beside.origin.trans beside.later, preparing.closed, .refl _, beside.built⟩

theorem starting {events more : Array Event} :
    Beside base limit ⟨a.atStep.cells, events, a.atStep.name⟩
      ⟨s.atStep.cells, more, s.atStep.name⟩ :=
  ⟨beside.later, beside.closed, beside.origin, beside.built⟩

theorem bound : base.known ⊆ a.known := by
  intro id found
  obtain ⟨c, there⟩ := Option.isSome_iff_exists.mp found
  obtain ⟨d, here, _⟩ := beside.origin id c there
  simp [here]

end Beside

section
variable {base : Store} {preparing : base.Preparing} {limit : Nat} {quiet quiet' : Bool}
  {side : Side} {ahead : Nat} {level : side = .left → ahead = 0} {a s : Store}

theorem answersBeside {x y : Run StepResult} (beside : Beside base limit a s)
    (coupled : Coupled (.beside preparing limit quiet quiet' side ahead level) a.known x y) :
    let p := Run.answerFrom x a.atStep
    let q := Run.answerFrom y s.atStep
    side.short p.1.exit q.1.exit ∨
      Comparable quiet quiet' p.1 q.1 ∧ Beside base limit p.2 q.2 := by
  have meets := coupled _ _
    ⟨beside.starting, fun _ => ⟨List.Sublist.refl #[].toList, fun _ => rfl⟩, 0, 0, rfl, rfl⟩
    subset_rfl
  unfold Run.answerFrom
  generalize x _ = p at meets ⊢
  generalize y _ = q at meets ⊢
  cases meets with
  | short cut => exact .inl cut
  | done agree _ _ =>
    refine .inr ⟨⟨rfl, fun still => (agree.2.1 still).1, fun both still => ?_⟩, agree.1⟩
    exact congrArg Array.toList ((agree.2.1 still).2 both)
  | raised agree _ =>
    refine .inr ⟨⟨rfl, fun still => (agree.2.1 still).1, fun both still => ?_⟩, agree.1⟩
    exact congrArg Array.toList ((agree.2.1 still).2 both)

end

section
variable {base : Store} (preparing : base.Preparing) {limit : Nat} {a s : Store}
include preparing

theorem answeredBeside (quiet quiet' : Bool) (side : Side) (ahead : Nat)
    (level : side = .left → ahead = 0) (enough : side = .right → limit ≤ ahead)
    (beside : Beside base limit a s) {env : Env} (bound : Over a.known env) (step : Step)
    (text : Text) :
    let p := step.answered (callPlainly quiet (limit + ahead)) env text a
    let q := step.answered (callPlainly quiet' limit) env text s
    side.short p.1.exit q.1.exit ∨
      Comparable quiet quiet' p.1 q.1 ∧ Beside base limit p.2 q.2 := by
  have calls : Callers (.beside preparing limit quiet quiet' side ahead level)
      (callPlainly quiet (limit + ahead)) (callPlainly quiet' limit) := callBeside enough
  exact answersBeside beside (stepCoupled calls bound step text)

variable {env : Env} (bound : Over base.known env)
include bound

theorem sessionQuiet (beside : Beside base limit a s) (left : Text) (steps : List Step)
    (ends : ∀ answer ∈ sessionFrom (callPlainly false limit) env a left steps,
      answer.exit ≠ .exhausted) :
    List.Forall₂ (Comparable false true) (sessionFrom (callPlainly false limit) env a left steps)
      (sessionFrom (callPlainly true limit) env s left steps) := by
  induction steps generalizing a s left with
  | nil => exact .nil
  | cons step steps ih =>
    rw [sessionCons] at ends
    obtain ⟨here, others⟩ := List.forall_mem_cons.mp ends
    rcases answeredBeside preparing false true .left 0 (fun _ => rfl)
      (fun wrong => nomatch wrong) beside (Cellular.grow beside.bound bound) step (step.input left)
      with short | ⟨same, after⟩
    · exact absurd short here
    · rw [sessionCons, sessionCons]
      refine .cons same ?_
      rw [← same.exit]
      exact ih after _ others

theorem sessionAlone (quiet : Bool) {more : Nat} (enough : limit + limit ≤ more)
    (used : Beside base limit base s) (left : Text) (steps : List Step)
    (ends : ∀ answer ∈ sessionFrom (callPlainly quiet limit) env s left steps,
      answer.exit ≠ .exhausted) :
    List.Forall₂ (fun step answer => Comparable quiet quiet
        (step.answered (callPlainly quiet more) env (step.input []) base).1 answer)
      (stepsOn left steps (sessionFrom (callPlainly quiet limit) env s left steps))
      (sessionFrom (callPlainly quiet limit) env s left steps) := by
  induction steps generalizing s left with
  | nil => exact .nil
  | cons step steps ih =>
    rw [sessionCons] at ends
    obtain ⟨here, others⟩ := List.forall_mem_cons.mp ends
    obtain ⟨ahead, rfl⟩ := Nat.exists_eq_add_of_le enough
    rw [Nat.add_assoc]
    rcases answeredBeside preparing quiet quiet .right (limit + ahead)
      (fun wrong => nomatch wrong) (fun _ => Nat.le_add_right ..) used bound step (step.input left)
      with short | ⟨same, after⟩
    · exact absurd short here
    · rw [sessionCons]
      exact .cons same (Nat.add_assoc .. ▸ ih (after.afresh preparing) _ others)

theorem sessionOfAlone (used : Beside base limit base s) (left : Text) (steps : List Step)
    (texts : ∀ step ∈ steps, step.text.isSome)
    (ends : ∀ step ∈ steps, (step.answered (callPlainly false limit) env (step.input []) base).1.exit
      ≠ .exhausted) :
    exits (sessionFrom (callPlainly false limit) env s left steps) = steps.map fun step =>
      (step.answered (callPlainly false limit) env (step.input []) base).1.exit := by
  induction steps generalizing s left with
  | nil => rfl
  | cons step steps ih =>
    obtain ⟨here, others⟩ := List.forall_mem_cons.mp ends
    obtain ⟨given, texts⟩ := List.forall_mem_cons.mp texts
    obtain ⟨text, given⟩ := Option.isSome_iff_exists.mp given
    have input (left : Text) : step.input left = text := by rw [Step.input, given]; rfl
    rw [input] at here
    rcases answeredBeside preparing false false .left 0 (fun _ => rfl)
      (fun wrong => nomatch wrong) used bound step text with short | ⟨same, after⟩
    · exact absurd short here
    · rw [sessionCons, List.map_cons, input, input]
      exact congrArg₂ List.cons same.exit.symm (ih (after.afresh preparing) _ texts others)

end

def sessionRun (run : Step → Text → Run StepResult) (store : Store) (left : Text) :
    List Step → List (Answer StepResult)
  | [] => []
  | step :: more =>
    let answered := Run.answerFrom (run step (step.input left)) store.atStep
    answered.1 :: sessionRun run answered.2 (leftAfter left answered.1.exit) more

theorem sessionIsRun (call : Caller) (env : Env) (store : Store) (left : Text) (steps : List Step) :
    sessionFrom call env store left steps = sessionRun (Step.run call env) store left steps := by
  induction steps generalizing store left with
  | nil => rfl
  | cons step steps ih => exact congrArg _ (ih ..)

theorem answersBelow {α : Type} {x y : Run α} (below : Below x y) {w : Store}
    (ends : (Run.answerFrom x w).1.exit ≠ .exhausted) : Run.answerFrom y w = Run.answerFrom x w := by
  rcases below ⟨w.cells, #[], w.name⟩ with same | short
  · unfold Run.answerFrom
    rw [same]
  · exact absurd short ends

theorem sessionBelow {run run' : Step → Text → Run StepResult}
    (below : ∀ step text, Below (run step text) (run' step text)) (store : Store) (left : Text)
    (steps : List Step)
    (ends : ∀ answer ∈ sessionRun run store left steps, answer.exit ≠ .exhausted) :
    sessionRun run' store left steps = sessionRun run store left steps := by
  induction steps generalizing store left with
  | nil => rfl
  | cons step steps ih =>
    obtain ⟨here, others⟩ := List.forall_mem_cons.mp ends
    have same := answersBelow (below step (step.input left)) here
    simp only [sessionRun, same]
    exact congrArg _ (ih _ _ others)

theorem sessionFromBelow {c d : Caller} (calls : CallerBelow c d) {env : Env} (store : Store)
    (left : Text) (steps : List Step)
    (ends : ∀ answer ∈ sessionFrom c env store left steps, answer.exit ≠ .exhausted) :
    sessionFrom d env store left steps = sessionFrom c env store left steps := by
  rw [sessionIsRun] at ends
  rw [sessionIsRun, sessionIsRun]
  exact sessionBelow (stepBelow calls env) store left steps ends

theorem sessionPlain {limit : Nat} {env : Env} (store : Store) (left : Text) (steps : List Step)
    (ends : ∀ answer ∈ sessionFrom (callPlainly false limit) env store left steps,
      answer.exit ≠ .exhausted) :
    sessionFrom (call limit) env store left steps =
      sessionFrom (callPlainly false limit) env store left steps :=
  sessionFromBelow (plainBelow limit) store left steps ends

theorem stepsOnExits (left : Text) (steps : List Step) {answers more : List (Answer StepResult)}
    (same : exits answers = exits more) :
    stepsOn left steps answers = stepsOn left steps more := by
  induction steps generalizing left answers more with
  | nil => rfl
  | cons step steps ih =>
    cases answers with
    | nil => cases more with
      | nil => rfl
      | cons b more => cases same
    | cons a answers => cases more with
      | nil => cases same
      | cons b more =>
        obtain ⟨first, others⟩ := List.cons.inj same
        simp only [stepsOn, first, ih _ others]

theorem stepsOnTexts (left : Text) (steps : List Step) (answers : List (Answer StepResult)) :
    ∀ step ∈ stepsOn left steps answers, step.text.isSome := by
  induction steps generalizing left answers with
  | nil => intro step mem; cases mem
  | cons step steps ih =>
    cases answers with
    | nil => intro step mem; cases mem
    | cons a answers => exact List.forall_mem_cons.mpr ⟨rfl, ih _ answers⟩

theorem stepsOnAll (left : Text) (steps : List Step) (answer : Answer StepResult) {α : Type}
    (a : α) : (stepsOn left steps (steps.map fun _ => answer)).flatMap (fun _ => [a]) =
      steps.map fun _ => a := by
  induction steps generalizing left with
  | nil => rfl
  | cons step steps ih =>
    exact congrArg _ (ih (leftAfter left answer.exit))

theorem endedIff {answers : List (Answer StepResult)} :
    (∀ exit ∈ exits answers, exit ≠ .exhausted) ↔ ∀ answer ∈ answers, answer.exit ≠ .exhausted := by
  simp [exits]

section
variable {ι : Type} {quiet quiet' : Bool} {f : ι → Answer StepResult} {on : List ι}
  {answers : List (Answer StepResult)}

theorem exitsOn (pairs : on.Forall₂ (fun i answer => Comparable quiet quiet' (f i) answer) answers) :
    on.map (fun i => (f i).exit) = exits answers := by
  induction pairs with
  | nil => rfl
  | cons pair _ ih => exact congrArg₂ _ pair.exit ih

theorem answersOn (pairs : on.Forall₂ (fun i answer => Comparable true true (f i) answer) answers) :
    on.map f = answers := by
  induction pairs with
  | nil => rfl
  | cons pair _ ih => exact congrArg₂ _ pair.equal ih

end

def Program.quietSession (limit : Nat) (p : Program) (steps : List Step) :
    List (Answer StepResult) := p.sessionBy (callPlainly true limit) limit steps

structure Forgets (p : Program) (limit more : Nat) (steps on : List Step) : Prop where
  results : exits (p.session limit steps) =
    on.flatMap fun step => exits (p.session more [step])
  quiet : p.quietSession limit steps = on.flatMap fun step => p.quietSession more [step]
  heard : List.Forall₂ (Comparable false true) (p.session limit steps)
    (p.quietSession limit steps)
  heardAlone : ∀ step ∈ on, List.Forall₂ (Comparable false true) (p.session more [step])
    (p.quietSession more [step])
  order : ∀ others, (∀ step ∈ others, step ∈ on) → exits (p.session more others) =
    others.flatMap fun step => exits (p.session more [step])

theorem preparedForgets {p : Program} {limit more : Nat} {env : Env} {base : Store}
    (prepared : p.prepare limit Store.empty = (.done env, base)) (enough : limit + limit ≤ more)
    {steps : List Step} (plain : ∀ answer ∈ p.sessionBy (callPlainly false limit) limit steps,
      answer.exit ≠ .exhausted) :
    Forgets p limit more steps (stepsOn [] steps (p.session limit steps)) := by
  obtain ⟨preparing, bound⟩ := Program.prepareOver prepared
  have later : p.prepare more Store.empty = (.done env, base) :=
    (Program.prepareBelow (by omega) p).ends prepared (by simp)
  have here (c : Caller) (steps : List Step) :
      p.sessionBy c limit steps = sessionFrom c env base [] steps := by
    simp only [Program.sessionBy, prepared]
  have there (c : Caller) (steps : List Step) :
      p.sessionBy c more steps = sessionFrom c env base [] steps := by
    simp only [Program.sessionBy, later]
  rw [here] at plain
  let lone (quiet : Bool) (step : Step) :=
    (step.answered (callPlainly quiet more) env (step.input []) base).1
  have real : p.session limit steps = sessionFrom (callPlainly false limit) env base [] steps :=
    (here _ _).trans (sessionPlain base [] steps plain)
  have heard := sessionQuiet preparing bound (.unused preparing) [] steps plain
  have alike := exitsOn heard
  have still : ∀ answer ∈ sessionFrom (callPlainly true limit) env base [] steps,
      answer.exit ≠ .exhausted := endedIff.mp (alike ▸ endedIff.mpr plain)
  have alone := sessionAlone preparing bound false enough (.unused preparing) [] steps plain
  have silent := sessionAlone preparing bound true enough (.unused preparing) [] steps still
  rw [← stepsOnExits [] steps alike] at silent
  rw [real]
  generalize texts : stepsOn [] steps (sessionFrom (callPlainly false limit) env base [] steps) = on
    at alone silent
  have results : on.map (fun step => (lone false step).exit) = _ := exitsOn alone
  have ends : ∀ step ∈ on, (lone false step).exit ≠ .exhausted := by
    intro step mem
    refine endedIff.mpr plain _ (results ▸ List.mem_map_of_mem mem)
  have sole : ∀ step ∈ on, p.session more [step] = [lone false step] := fun step mem =>
    (there _ _).trans (sessionPlain base [] [step] (List.forall_mem_singleton.mpr (ends step mem)))
  have each : ∀ others : List Step, (∀ step ∈ others, step ∈ on) →
      (others.flatMap fun step => exits (p.session more [step])) =
        others.map fun step => (lone false step).exit := by
    intro others inside
    rw [← List.flatMap_pure_eq_map]
    exact List.flatMap_congr fun step mem => by rw [sole step (inside step mem)]; rfl
  refine ⟨?results, ?quiet, ?heard, ?heardAlone, ?order⟩
  case results => rw [each on fun _ mem => mem, results, real]
  case quiet =>
    have answers : on.map (lone true) = _ := answersOn silent
    rw [Program.quietSession, here, ← answers, ← List.flatMap_pure_eq_map]
    exact List.flatMap_congr fun step _ => (there (callPlainly true more) [step]).symm
  case heard => rwa [real, Program.quietSession, here]
  case heardAlone =>
    intro step mem
    rw [sole step mem, Program.quietSession, there]
    exact sessionQuiet preparing bound (.unused preparing) [] [step]
      (List.forall_mem_singleton.mpr (ends step mem))
  case order =>
    intro others inside
    have given : ∀ step ∈ others, step.text.isSome := fun step mem =>
      stepsOnTexts _ _ _ step (texts ▸ inside step mem)
    have answers := sessionOfAlone preparing bound (.unused preparing) [] others given
      fun step mem => ends step (inside step mem)
    rw [each others inside, ← answers, Program.session, there]
    refine congrArg exits (sessionPlain base [] others (endedIff.mp (answers ▸ ?_)))
    simpa using fun step mem => ends step (inside step mem)

theorem constantForgets {p : Program} {limit more : Nat} (answer : Answer StepResult)
    (here : ∀ c steps, p.sessionBy c limit steps = steps.map fun _ => answer)
    (there : ∀ c steps, p.sessionBy c more steps = steps.map fun _ => answer) (steps : List Step) :
    Forgets p limit more steps (stepsOn [] steps (p.session limit steps)) := by
  have alike (steps : List Step) : List.Forall₂ (Comparable false true)
      (steps.map fun _ => answer) (steps.map fun _ => answer) :=
    List.forall₂_same.mpr fun _ _ => ⟨rfl, fun _ => List.Sublist.refl _, fun wrong => nomatch wrong⟩
  refine ⟨?results, ?quiet, ?heard, ?heardAlone, ?order⟩
  all_goals simp only [Program.session, Program.quietSession, here, there, exits, List.map_map,
    List.map_singleton]
  case results => exact (stepsOnAll [] steps answer answer.exit).symm
  case quiet => exact (stepsOnAll [] steps answer answer).symm
  case heard => exact alike steps
  case heardAlone => exact fun step _ => alike [step]
  case order => exact fun others _ => (List.flatMap_pure_eq_map _ others).symm

theorem sessionNone (call : Caller) (limit : Nat) (p : Program) :
    p.sessionBy call limit [] = [] := by
  unfold Program.sessionBy
  split <;> rfl

/-- Parsers carry no history. Where no parser is applied while a cell is filled, the steps of a
session have the results that each of them has alone on parsers built afresh, and so they have in
any order and number. So have their events, without those put down by filling cells. -/
theorem sessionsForget {p : Program} {limit more : Nat} (enough : limit + limit ≤ more)
    {steps : List Step} (plain : ∀ answer ∈ p.sessionBy (callPlainly false limit) limit steps,
      answer.exit ≠ .exhausted) :
    Forgets p limit more steps (stepsOn [] steps (p.session limit steps)) := by
  rcases prepared : p.prepare limit Store.empty with ⟨env | fault | _, base⟩
  · exact preparedForgets prepared enough plain
  · have later : p.prepare more Store.empty = (.raised fault, base) :=
      (Program.prepareBelow (by omega) p).ends prepared (by simp)
    refine constantForgets ⟨.raised fault, []⟩ ?_ ?_ steps
    · intro c steps
      simp only [Program.sessionBy, prepared]
    · intro c steps
      simp only [Program.sessionBy, later]
  · simp only [Program.sessionBy, prepared] at plain
    cases steps with
    | cons step steps => exact absurd rfl (plain _ List.mem_cons_self)
    | nil =>
      have none (call : Caller) (limit : Nat) := sessionNone call limit p
      refine ⟨?_, none _ _, ?_, nofun, fun others outside => ?_⟩
      · rw [Program.session, none]
        rfl
      · rw [Program.session, Program.quietSession, none, none]
        exact .nil
      · obtain rfl := List.eq_nil_iff_forall_not_mem.mpr fun step mem =>
          nomatch outside step mem
        rw [Program.session, none]
        rfl

def lettersProgram : Program where
  definitions := [("letters", .binary .alt
    (.binary .keepRight (.unary .char (.lit (.str ['a']))) (.var "letters"))
    (.unary .ret (.lit .none)))]
  bindings := [
    ("next", .run [.yield (.var "letters") none, .yield (.atom .item) (some "c"),
      .ret (.var "c")]),
    ("broken", .lazy (some ['b']) (.binary .map (.atom .item)
      (.lambda ["x"] (.call (.builtin .int) [.var "x"] []))))]

def lettersSteps : List Step := [
  ⟨.var "letters", some ['a', 'a', 'b', 'c'], none⟩,
  ⟨.var "next", none, none⟩,
  ⟨.var "broken", some ['x'], none⟩,
  ⟨.var "broken", some ['7'], none⟩,
  ⟨.var "next", some ['a', 'c'], some ['w']⟩]

theorem lettersForgotten :
    let answers := lettersProgram.sessionBy (callPlainly false 12) 12 lettersSteps
    (∀ answer ∈ answers, (answer.exit matches .exhausted) = false) ∧
      Forgets lettersProgram 12 24 lettersSteps
        (stepsOn [] lettersSteps (lettersProgram.session 12 lettersSteps)) := by
  intro answers
  have ends : ∀ answer ∈ answers, (answer.exit matches .exhausted) = false := by decide +kernel
  refine ⟨ends, sessionsForget (Nat.le_refl 24) fun answer mem cut => ?_⟩
  have ended := ends answer mem
  rw [cut] at ended
  cases ended

end ParseKit.Script
