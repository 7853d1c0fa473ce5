import ParseKit.Proofs.History.Thunks

/-! Shared parsers over sessions. Main statement: from wherever a program stands, the thunk of a
shared parser that only builds is evaluated on each application until it returns, and never again.
Each application from then on is one of the parser that it has returned, whatever comes of it. -/
namespace ParseKit.Script
open Eff (Below)

structure Account (α : Type) where
  exit : Exit α
  entries : List Entry

def Account.answer {α : Type} (tell : Teller) (account : Account α) : Answer α :=
  ⟨account.exit, told tell account.entries⟩

def entriesOf {α : Type} (accounts : List (Account α)) : List Entry :=
  accounts.flatMap Account.entries

section
variable {start : Store} {only : Name → Bool} {past : List Entry} {tell tell' : Teller}

theorem answersTold {α : Type} [Cellular α] {a s : Store} (cells : a.cells = s.cells)
    (name : a.name = s.name) (closed : a.Closed) (lives : Lives start only past a) {x y : Run α}
    (coupled : Coupled (.lives start only past tell tell') a.known x y)
    (ends : (Run.answerFrom y s).1.exit ≠ .exhausted) :
    ∃ (account : Account α) (after after' : Store),
      Run.answerFrom x a = (account.answer tell, after) ∧
        Run.answerFrom y s = (account.answer tell', after') ∧
      after.cells = after'.cells ∧ after.Closed ∧ a.known ⊆ after.known ∧
        (∀ v, account.exit = .done v → Over after.known v) ∧
        Lives start only (past ++ account.entries) after := by
  have lives : Lives start only (past ++ []) a := by rwa [List.append_nil]
  have meets := coupled ⟨a.cells, #[], a.name⟩ ⟨s.cells, #[], s.name⟩
    ⟨cells, name, closed, [], rfl, rfl, lives⟩ subset_rfl
  unfold Run.answerFrom at ends ⊢
  generalize x _ = p at meets ⊢
  generalize y _ = q at meets ends ⊢
  cases meets with
  | short cut => exact absurd cut ends
  | @done v _ _ ended grown based =>
    obtain ⟨same, _, closed, entries, left, right, lived⟩ := ended
    refine ⟨⟨.done v, entries⟩, _, _, by simp [Account.answer, left],
      by simp [Account.answer, right], same, closed, grown, fun w here => ?_, lived⟩
    cases here
    exact based
  | @raised fault _ _ ended grown =>
    obtain ⟨same, _, closed, entries, left, right, lived⟩ := ended
    exact ⟨⟨.raised fault, entries⟩, _, _, by simp [Account.answer, left],
      by simp [Account.answer, right], same, closed, grown, nofun, lived⟩

variable (tell) in
theorem sessionTold {env : Env} {limit : Nat} {a s : Store} (cells : a.cells = s.cells)
    (closed : a.Closed) (bound : Over a.known env) (lives : Lives start only past a) (left : Text)
    (steps : List Step)
    (ends : ∀ answer ∈ sessionFrom (callTelling tell' only limit) env s left steps,
      answer.exit ≠ .exhausted) :
    ∃ accounts : List (Account StepResult),
      sessionFrom (callTelling tell only limit) env a left steps =
          accounts.map (Account.answer tell) ∧
        sessionFrom (callTelling tell' only limit) env s left steps =
          accounts.map (Account.answer tell') ∧
      ∀ l, only l.name = true →
        ∃ last, Life (start.held l) (momentsOf l (past ++ entriesOf accounts)) last := by
  induction steps generalizing a s left past with
  | nil =>
    refine ⟨[], rfl, rfl, fun l chosen => ?_⟩
    obtain ⟨last, life, _⟩ := lives l chosen
    exact ⟨last, (List.append_nil past).symm ▸ life⟩
  | cons step steps ih =>
    rw [sessionCons] at ends
    obtain ⟨here, others⟩ := List.forall_mem_cons.mp ends
    obtain ⟨account, after, after', told, told', same, closed', grown, _, lived⟩ :=
      answersTold (a := a.atStep) (s := s.atStep) cells rfl closed lives
        (stepCoupled (callTellingCoupled limit) bound step (step.input left)) here
    have answered : step.answered (callTelling tell only limit) env (step.input left) a =
        (account.answer tell, after) := told
    have answered' : step.answered (callTelling tell' only limit) env (step.input left) s =
        (account.answer tell', after') := told'
    rw [answered'] at others
    obtain ⟨accounts, first, second, rest⟩ :=
      ih same closed' (Cellular.grow grown bound) lived _ others
    refine ⟨account :: accounts, ?_, ?_, fun l chosen => ?_⟩
    · rw [sessionCons, answered]
      exact congrArg _ first
    · rw [sessionCons, answered']
      exact congrArg _ second
    · obtain ⟨last, life⟩ := rest l chosen
      exact ⟨last, (List.append_assoc .. ▸ life : Life _ (momentsOf l _) _)⟩

end

namespace Program

section
variable {start : Store} {only : Name → Bool} {past : List Entry} {tell tell' : Teller}
  {known : Set Name}

theorem linkTold (definitions : List Name) {env : Env} (based : Over known env) :
    Coupled (.lives start only past tell tell') known (Eff.modify (link definitions env))
      (Eff.modify (link definitions env)) := by
  rintro a s ⟨cells, name, closed, entries, left, right, lives⟩ grown
  obtain ⟨linked, same⟩ := linkClosed closed definitions (Cellular.grow grown based)
  refine .done ⟨by simp only [link, cells], name, linked, entries, left, right, ?_⟩ same.ge trivial
  have made (id : Name) : (link definitions env a).made id = a.made id := by
    simp only [Store.made, link, List.countP_map]
    congr 1
    funext c
    dsimp only [Function.comp]
    split <;> rfl
  have held (l : Lazy) : (link definitions env a).held l = a.held l := by
    simp only [Store.held, made, cellLinked, Option.bind_map]
    congr 2
    funext c
    dsimp only [Function.comp]
    split <;> rfl
  have lived : Lives start only (past ++ entries ++ []) (link definitions env a) :=
    Lives.stays lives (fun _ _ => rfl) (fun id _ => made id) fun l _ => held l
  rwa [List.append_nil] at lived

theorem prepareTold (limit : Nat) (p : Program) :
    Coupled (.lives start only past tell tell') known (p.prepareBy (callTelling tell only limit))
      (p.prepareBy (callTelling tell' only limit)) := by
  refine (shareAllCoupled p.definitions).bind fun more shared _ based => ?_
  generalize p.bindings = bindings
  have each : ∀ (env : Env) (known : Set Name), Over known env →
      Coupled (.lives start only past tell tell') known
        (bindEachBy (callTelling tell only limit) (cellsOf shared) env bindings)
        (bindEachBy (callTelling tell' only limit) (cellsOf shared) env bindings) := by
    induction bindings with
    | nil =>
      exact fun env known based => (linkTold _ based).bind fun _ _ sub _ =>
        .done (Cellular.grow sub based)
    | cons binding more ih =>
      exact fun env known based => (linkTold _ based).bind fun _ _ sub _ =>
        (evalCoupled (callTellingCoupled limit) binding.2 _ (Cellular.grow sub based)).bind
          fun _ v later value =>
            ih _ _ (Env.setOver (Cellular.grow (sub.trans later) based) binding.1 value)
  exact each shared more based

end

end Program

inductive Standing where
  | unprepared
  | prepared (env : Env) (store : Store) (left : Text)

namespace Standing

def store : Standing → Store
  | unprepared => .empty
  | prepared _ store _ => store

def answers (call : Caller) (p : Program) (steps : List Step) :
    Standing → Option (Answer Env) × List (Answer StepResult)
  | prepared env store left => (none, sessionFrom call env store left steps)
  | unprepared =>
    let (answer, store) := Run.answerFrom (p.prepareBy call) Store.empty
    (some answer, match answer.exit with
      | .done env => sessionFrom call env store [] steps
      | .raised fault => steps.map fun _ => ⟨.raised fault, []⟩
      | .exhausted => steps.map fun _ => ⟨.exhausted, []⟩)

end Standing

inductive Program.Reaches (p : Program) (limit : Nat) : Standing → Prop where
  | unprepared : Reaches p limit .unprepared
  | prepared {env : Env} {base : Store} (run : p.prepare limit Store.empty = (.done env, base)) :
      Reaches p limit (.prepared env base [])
  | stepped {env : Env} {store after : Store} {left : Text} {step : Step}
      {answer : Answer StepResult} (before : Reaches p limit (.prepared env store left))
      (run : step.answered (call limit) env (step.input left) store = (answer, after))
      (ends : answer.exit ≠ .exhausted) :
      Reaches p limit (.prepared env after (leftAfter left answer.exit))

theorem Program.Reaches.atHome {p : Program} {limit : Nat} {env : Env} {store : Store} {left : Text}
    (reached : p.Reaches limit (.prepared env store left)) :
    store.Closed ∧ Over store.known env := by
  generalize same : Standing.prepared env store left = standing at reached
  induction reached generalizing env store left with
  | unprepared => cases same
  | prepared run =>
    cases same
    obtain ⟨preparing, bound⟩ := prepareOver run
    exact ⟨preparing.closed, bound⟩
  | @stepped env' store' after left' step answer before run ends ih =>
    cases same
    obtain ⟨closed, bound⟩ := ih rfl
    have calls : Callers (.lives store' unheld [] .silent .silent) (call limit) (call limit) :=
      callTellingSilent limit ▸ callTellingCoupled limit
    have same : Run.answerFrom (step.run (call limit) env' (step.input left')) store'.atStep =
        (answer, after) := run
    have ended : (Run.answerFrom (step.run (call limit) env' (step.input left'))
        store'.atStep).1.exit ≠ .exhausted := by rwa [same]
    obtain ⟨account, last, last', told, _, _, closed', grown, _⟩ := answersTold (a := store'.atStep)
      rfl rfl closed (Lives.begin store' unheld)
      (stepCoupled calls bound step (step.input left')) ended
    obtain rfl : last = after := congrArg Prod.snd (told.symm.trans same)
    exact ⟨closed', Cellular.grow grown bound⟩

def Answer.whole {α : Type} (answer : Answer α) : Bool :=
  match answer.exit with
  | .done _ | .raised _ => true
  | .exhausted => false

theorem Answer.wholeIff {α : Type} (answer : Answer α) :
    answer.whole = true ↔ answer.exit ≠ .exhausted := by
  obtain ⟨_ | _ | _, events⟩ := answer <;> simp [whole]

def Ended (answers : Option (Answer Env) × List (Answer StepResult)) : Prop :=
  (∀ answer ∈ answers.1, answer.exit ≠ .exhausted) ∧ ∀ answer ∈ answers.2, answer.exit ≠ .exhausted

theorem endedWhole (answers : Option (Answer Env) × List (Answer StepResult)) :
    (answers.1.all Answer.whole && answers.2.all Answer.whole) = true ↔ Ended answers := by
  obtain ⟨_ | first, rest⟩ := answers <;> simp [Ended, Answer.wholeIff]

instance (answers : Option (Answer Env) × List (Answer StepResult)) : Decidable (Ended answers) :=
  decidable_of_iff _ (endedWhole answers)

def seenOf (l : Lazy) (preparing : Option (Account Env)) (accounts : List (Account StepResult)) :
    List Moment :=
  momentsOf l (entriesOf preparing.toList ++ entriesOf accounts)

structure ToldOnce (p : Program) (limit : Nat) (standing : Standing) (only : Name → Bool)
    (steps : List Step) (tell : Teller) (preparing : Option (Account Env))
    (accounts : List (Account StepResult)) : Prop where
  untold : standing.answers (call limit) p steps =
    (preparing.map (Account.answer .silent), accounts.map (Account.answer .silent))
  told : standing.answers (callTelling tell unheld limit) p steps =
    (preparing.map (Account.answer tell), accounts.map (Account.answer tell))
  lives : ∀ l, only l.name = true →
    ∃ last, Life (standing.store.held l) (seenOf l preparing accounts) last
  returns : ∀ l, only l.name = true → (seenOf l preparing accounts).countP Moment.isReturn ≤ 1
  passes : ∀ l, only l.name = true → ∀ p q, .passed p ∈ seenOf l preparing accounts →
    .passed q ∈ seenOf l preparing accounts → p = q

theorem ToldOnce.ofLives {p : Program} {limit : Nat} {standing : Standing} {only : Name → Bool}
    {steps : List Step} {tell : Teller} {preparing : Option (Account Env)}
    {accounts : List (Account StepResult)}
    (untold : standing.answers (call limit) p steps =
      (preparing.map (Account.answer .silent), accounts.map (Account.answer .silent)))
    (told : standing.answers (callTelling tell unheld limit) p steps =
      (preparing.map (Account.answer tell), accounts.map (Account.answer tell)))
    (lives : ∀ l, only l.name = true →
      ∃ last, Life (standing.store.held l) (seenOf l preparing accounts) last) :
    ToldOnce p limit standing only steps tell preparing accounts where
  untold := untold
  told := told
  lives := lives
  returns l chosen := by
    obtain ⟨last, life⟩ := lives l chosen
    exact life.returnsOnce
  passes l chosen p q first second := by
    obtain ⟨last, life⟩ := lives l chosen
    exact Option.some.inj ((life.passes first).symm.trans (life.passes second))

section
variable (p : Program) {limit : Nat} (only : Name → Bool) {steps : List Step} (tell : Teller)

theorem endedTold {α : Type} {accounts : List (Account α)} (other : Teller)
    (ends : ∀ answer ∈ accounts.map (Account.answer other), answer.exit ≠ .exhausted) :
    ∀ answer ∈ accounts.map (Account.answer tell), answer.exit ≠ .exhausted := by
  simpa [Account.answer] using ends

theorem stepsTold {start a s : Store} {past : List Entry} {env : Env} (cells : a.cells = s.cells)
    (closed : a.Closed) (bound : Over a.known env) (lives : Lives start only past a) (left : Text)
    (builds : ∀ answer ∈ sessionFrom (callTelling .silent only limit) env s left steps,
      answer.exit ≠ .exhausted) :
    ∃ accounts : List (Account StepResult),
      sessionFrom (call limit) env s left steps = accounts.map (Account.answer .silent) ∧
        sessionFrom (callTelling tell unheld limit) env a left steps =
          accounts.map (Account.answer tell) ∧
      ∀ l, only l.name = true →
        ∃ last, Life (start.held l) (momentsOf l (past ++ entriesOf accounts)) last := by
  obtain ⟨accounts, told, untold, lived⟩ :=
    sessionTold tell cells closed bound lives left steps builds
  have below (t : Teller) := callTellingBelow t only (Nat.le_refl limit)
  refine ⟨accounts, ?_, ?_, lived⟩
  · rw [← untold, ← callTellingSilent]
    exact sessionFromBelow (below .silent) s left steps builds
  · rw [← told]
    refine sessionFromBelow (below tell) a left steps ?_
    rw [told]
    exact endedTold tell .silent (untold ▸ builds)

theorem unpreparedAnswers (call : Caller) (steps : List Step) {answer : Answer Env} {base : Store}
    (run : Run.answerFrom (p.prepareBy call) Store.empty = (answer, base)) :
    Standing.answers call p steps .unprepared = (some answer, match answer.exit with
      | .done env => sessionFrom call env base [] steps
      | .raised fault => steps.map fun _ => ⟨.raised fault, []⟩
      | .exhausted => steps.map fun _ => ⟨.exhausted, []⟩) := by
  simp only [Standing.answers, run]

theorem unpreparedTold
    (builds : Ended (Standing.answers (callTelling .silent only limit) p steps .unprepared)) :
    ∃ preparing accounts, ToldOnce p limit .unprepared only steps tell preparing accounts := by
  rcases run : Run.answerFrom (p.prepareBy (callTelling .silent only limit)) Store.empty with
    ⟨answer, base⟩
  rw [unpreparedAnswers p _ steps run] at builds
  obtain ⟨ends, later⟩ := builds
  have here : answer.exit ≠ .exhausted := ends answer rfl
  have empty : Store.empty.Closed := fun id c found => nomatch found
  have coupled : Coupled (.lives Store.empty only [] tell .silent) Store.empty.known _ _ :=
    Program.prepareTold limit p
  obtain ⟨⟨exit, entries⟩, after, after', told, untold, cells, closed, _, based, lives⟩ :=
    answersTold rfl rfl empty (Lives.begin Store.empty only) coupled (run ▸ here)
  obtain ⟨rfl, rfl⟩ := Prod.mk.inj (run.symm.trans untold)
  have below (t : Teller) := Program.prepareByBelow (callTellingBelow t only (Nat.le_refl limit)) p
  have prepared : Run.answerFrom (p.prepareBy (call limit)) Store.empty = _ :=
    callTellingSilent limit ▸ (answersBelow (below .silent) (by rwa [untold])).trans untold
  have prepared' : Run.answerFrom (p.prepareBy (callTelling tell unheld limit)) Store.empty = _ :=
    (answersBelow (below tell) (by rwa [told])).trans told
  cases exit with
  | exhausted => exact absurd rfl here
  | done env =>
    obtain ⟨accounts, rest, rest', lived⟩ :=
      stepsTold only tell cells closed (based env rfl) lives [] later
    refine ⟨some ⟨.done env, entries⟩, accounts, .ofLives ?_ ?_ fun l chosen => ?_⟩
    · rw [unpreparedAnswers p _ steps prepared]
      exact congrArg (Prod.mk _) rest
    · rw [unpreparedAnswers p _ steps prepared']
      exact congrArg (Prod.mk _) rest'
    · simpa [seenOf, entriesOf, Standing.store] using lived l chosen
  | raised fault =>
    refine ⟨some ⟨.raised fault, entries⟩, steps.map fun _ => ⟨.raised fault, []⟩,
      .ofLives ?_ ?_ fun l chosen => ?_⟩
    · rw [unpreparedAnswers p _ steps prepared, List.map_map]
      rfl
    · rw [unpreparedAnswers p _ steps prepared', List.map_map]
      rfl
    · obtain ⟨last, life, _⟩ := lives l chosen
      have silent : entriesOf (steps.map fun _ => (⟨.raised fault, []⟩ : Account StepResult)) =
          [] := by simp [entriesOf]
      refine ⟨last, ?_⟩
      rw [seenOf, silent]
      simpa [entriesOf, Standing.store] using life

def Cell.thunk (c : Cell) (limit : Nat) : Run Value :=
  Run.building c.name (build (evalWith (callFunction limit)) c.tag c.body c.env)

/- What an application of a shared parser is: one of the parser that its cell holds. If there is
none yet, it is what the thunk returns then; what the thunk raises is passed on, and the cell is
left empty. -/
structure Cell.Applies (c : Cell) (limit : Nat) (mark : Mark) (x : Value) (w : Store) : Prop where
  held : ∀ p, c.built = some p →
    apply (limit + 1) (.parser mark (.shared c.name)) x w = apply limit p x w
  returns : c.built = none → ∀ p after, c.thunk limit w = (.done p, after) →
    apply (limit + 1) (.parser mark (.shared c.name)) x w =
      apply limit p x (after.addCell { c with built := some p })
  raises : c.built = none → ∀ fault after, c.thunk limit w = (.raised fault, after) →
    apply (limit + 1) (.parser mark (.shared c.name)) x w = (.raised fault, after) ∧
      after.cell? c.name = some c

theorem thunkLeaves {w after : Store} {c : Cell} {exit : Exit Value} (closed : w.Closed)
    (found : w.cell? c.name = some c) (run : c.thunk limit w = (exit, after))
    (ended : exit ≠ .exhausted) : after.cell? c.name = some c := by
  have lives : Lives w unheld (([] : List Entry) ++ w.events.toList.map Entry.event ++
      ([] : List Event).map Entry.event) w := fun _ chosen => nomatch chosen
  have begun : Aligned (Evaluating w unheld [] (w.events.toList.map Entry.event) (w.lazy c.name) c)
      .silent .silent (w.naming (.inner c.name w.name.stage 0 0))
      (w.naming (.inner c.name w.name.stage 0 0)) := by
    have same : w.events.toList = told .silent (w.events.toList.map Entry.event ++
        ([.applied, .began].map (fun m => Entry.sight ⟨w.lazy c.name, m⟩) ++
          ([] : List Event).map Entry.event)) := by
      rw [toldAppend, toldEvents]
      simp [told, Teller.silent]
    exact ⟨rfl, rfl, closed, _, same, same, ⟨[], rfl, lives⟩, rfl, found, _, 0, 0, rfl⟩
  have meets := evaluationMeets limit begun (closed c.name c found).1
  unfold Cell.thunk Run.building at run
  generalize build _ _ _ _ _ = result at meets run
  obtain ⟨rfl, rfl⟩ := Prod.mk.inj run
  cases meets with
  | short cut => exact absurd cut ended
  | done agree => exact agree.untouched.1
  | raised agree => exact agree.untouched.1

theorem forceThunk {w after : Store} {c : Cell} (found : w.cell? c.name = some c)
    (empty : c.built = none) :
    (∀ fault, c.thunk limit w = (.raised fault, after) →
        force (evalWith (call limit)) c.name w = (.raised fault, after)) ∧
      ∀ p, c.thunk limit w = (.done p, after) → after.cell? c.name = some c →
        force (evalWith (call limit)) c.name w =
          (.done p, after.addCell { c with built := some p }) := by
  obtain ⟨name, tag, body, env, built⟩ := c
  obtain rfl : built = none := empty
  have calls := functionsAreCalls (Nat.le_refl limit)
  have below := buildingBelow name
    (buildBelow (fun env e => evalBelow calls env e) tag body env)
  rw [forceUnfilled found]
  refine ⟨fun fault run => Eff.bindOfRaised (below.ends run nofun), fun p run still => ?_⟩
  rw [Eff.bindOfDone (below.ends run nofun)]
  exact fillEmpty still p

theorem sharedApplies {w : Store} {c : Cell} (closed : w.Closed) (found : w.cell? c.name = some c)
    (mark : Mark) (x : Value) : c.Applies limit mark x w := by
  have forces : apply (limit + 1) (.parser mark (.shared c.name)) x w =
      (force (evalWith (call limit)) c.name >>= fun p => apply limit p x) w := rfl
  refine ⟨fun p held => ?_, fun empty p after run => ?_, fun empty fault after run => ?_⟩
  · rw [forces, Eff.bindOfDone (forceFound _ found held)]
  · have still := thunkLeaves closed found run nofun
    rw [forces, Eff.bindOfDone ((forceThunk found empty).2 p run still)]
  · have still := thunkLeaves closed found run nofun
    rw [forces, Eff.bindOfRaised ((forceThunk found empty).1 fault run)]
    exact ⟨rfl, still⟩

end

structure ReturnsOnce (p : Program) (limit : Nat) (standing : Standing) (only : Name → Bool)
    (steps : List Step) : Prop where
  told : ∀ tell, ∃ preparing accounts, ToldOnce p limit standing only steps tell preparing accounts
  applies : ∀ {w : Store} {c : Cell}, w.Closed → w.cell? c.name = some c →
    ∀ mark x, c.Applies limit mark x w

/-- A thunk returns at most once. Wherever a session goes on, a shared parser whose thunk only
builds has that thunk evaluated once for each application until it returns, with every fault passed
on, and not again. From then on, and already there, its applications are those of the parser that
has been returned, however deep they stand in others, and whatever they come to. -/
theorem thunksReturnOnce {p : Program} {limit : Nat} {standing : Standing}
    (reached : p.Reaches limit standing) (only : Name → Bool) {steps : List Step}
    (builds : Ended (standing.answers (callTelling .silent only limit) p steps)) :
    ReturnsOnce p limit standing only steps := by
  refine ⟨fun tell => ?_, fun closed found mark x => sharedApplies closed found mark x⟩
  cases standing with
  | unprepared => exact unpreparedTold p only tell builds
  | prepared env store left =>
    obtain ⟨closed, bound⟩ := reached.atHome
    obtain ⟨accounts, real, told, lives⟩ :=
      stepsTold only tell rfl closed bound (Lives.begin store only) left builds.2
    refine ⟨none, accounts, .ofLives (congrArg (Prod.mk none) real)
      (congrArg (Prod.mk none) told) ?_⟩
    simpa [seenOf, entriesOf, Standing.store] using lives

def raisingProgram : Program where
  definitions := [("letters", .binary .alt
    (.binary .keepRight (.unary .char (.lit (.str ['a']))) (.var "letters"))
    (.unary .ret (.lit .none)))]
  bindings := [
    ("read", .call (.var "letters") [.lit (.str ['a', 'a'])] []),
    ("bad", .lazy (some ['t']) (.call (.builtin .int) [.lit (.str ['x'])] []))]

def raisingSteps : List Step := [
  ⟨.var "bad", some ['a'], none⟩,
  ⟨.var "letters", some ['a', 'b'], none⟩,
  ⟨.var "bad", none, none⟩]

theorem badRaisesEachTime :
    let answers := Standing.answers (callTelling .silent (fun _ => true) 12) raisingProgram
      raisingSteps .unprepared
    raisingProgram.Reaches 12 .unprepared ∧ Ended answers ∧
      ReturnsOnce raisingProgram 12 .unprepared (fun _ => true) raisingSteps := by
  intro answers
  have ended : Ended answers := by decide +kernel
  exact ⟨.unprepared, ended, thunksReturnOnce .unprepared (fun _ => true) ended⟩

end ParseKit.Script
