import ParseKit.Proofs.History.Coupling

/-! Evaluation side by side: where calls are coupled, so are the values of expressions, the steps of
blocks and the applications of parsers to values. Of shared parsers nothing is said here, since what
applying them does depends on what has been built. -/
namespace ParseKit.Script

def Callers (K : Coupling) (c d : Caller) : Prop :=
  ∀ known f args named, Over known f → Over known args → Over known named →
    Coupled K known (c f args named) (d f args named)

def Evals (K : Coupling) (e f : Env → Expr → Run Value) : Prop :=
  ∀ known env expr, Over known env → Coupled K known (e env expr) (f env expr)

def Appliers (K : Coupling) (a b : Applier) : Prop :=
  ∀ known p x, Over known p → Over known x → Coupled K known (a p x) (b p x)

variable {K : Coupling} {known : Set Name}

theorem literalCoupled (l : Literal) : Coupled K known l.eval l.eval := by
  cases l with
  | float x => exact .number x
  | _ => exact .done (by simp)

mutual

theorem evalCoupled {c d : Caller} (calls : Callers K c d) {env : Env} :
    (e : Expr) → (known : Set Name) → Over known env →
      Coupled K known (evalWith c env e) (evalWith d env e)
  | .lit l, _, _ => literalCoupled l
  | .list items, known, bound => (evalAllCoupled calls items known bound).bind
      fun _ _ _ based => .done (by simpa using based)
  | .tuple items, known, bound => (evalAllCoupled calls items known bound).bind
      fun _ _ _ based => .done (by simpa using based)
  | .var x, known, bound => by
    have found := Env.findOver bound x
    simp only [evalWith]
    cases same : env.find? x with
    | none => exact .raise _
    | some v => exact .done (found v same)
  | .builtin b, _, _ => .done (by simp)
  | .call f args named, known, bound =>
    (evalCoupled calls f known bound).bind fun more f sub function =>
      (evalAllCoupled calls args more (Cellular.grow sub bound)).bind fun large args later given =>
        (evalNamedCoupled calls named large (Cellular.grow (sub.trans later) bound)).bind
          fun last named further names =>
            calls last f args named (Cellular.grow (later.trans further) function)
              (Cellular.grow further given) names
  | .lambda params body, known, bound => Coupled.name.bind fun _ _ sub _ =>
      .done (by simpa using Cellular.grow sub bound)
  | .cond test yes no, known, bound =>
    (evalCoupled calls test known bound).bind fun more v sub _ => by
      cases v.isTrue with
      | true => exact evalCoupled calls yes more (Cellular.grow sub bound)
      | false => exact evalCoupled calls no more (Cellular.grow sub bound)
  | .blockFn params body, known, bound => Coupled.name.bind fun _ _ sub _ =>
      .done (by simpa using Cellular.grow sub bound)
  | .atom a, _, _ => .done a.valueOver
  | .unary op a, known, bound => (evalCoupled calls a known bound).bind fun _ _ _ based =>
      (Coupled.ofExcept (op.buildOver based)).bind fun _ _ _ => .make
  | .binary op a b, known, bound => (evalCoupled calls a known bound).bind fun more v sub left =>
      (evalCoupled calls b more (Cellular.grow sub bound)).bind fun _ w later right =>
        (Coupled.ofExcept (op.buildOver (Cellular.grow later left) right)).bind
          fun _ _ _ => .make
  | .between opening closing inner, known, bound =>
    (evalCoupled calls opening known bound).bind fun more v sub left =>
      (evalCoupled calls closing more (Cellular.grow sub bound)).bind fun large w later right =>
        (evalCoupled calls inner large (Cellular.grow (sub.trans later) bound)).bind
          fun _ u last middle =>
            (Coupled.ofExcept (betweenOver (Cellular.grow (later.trans last) left)
              (Cellular.grow last right) middle)).bind fun _ _ _ => .make
  | .lazy tag body, known, bound => .share tag body bound fun _ _ _ there =>
      .make (by simpa using there)
  | .run body, known, bound => .make (by simpa using bound)

theorem evalAllCoupled {c d : Caller} (calls : Callers K c d) {env : Env} :
    (es : List Expr) → (known : Set Name) → Over known env →
      Coupled K known (evalAllWith c env es) (evalAllWith d env es)
  | [], _, _ => .done (by simp)
  | e :: es, known, bound => (evalCoupled calls e known bound).bind fun more v sub first =>
      (evalAllCoupled calls es more (Cellular.grow sub bound)).bind fun _ vs later others =>
        .done (overCons (Cellular.grow later first) others)

theorem evalNamedCoupled {c d : Caller} (calls : Callers K c d) {env : Env} :
    (es : List (String × Expr)) → (known : Set Name) → Over known env →
      Coupled K known (evalNamedWith c env es) (evalNamedWith d env es)
  | [], _, _ => .done (by simp)
  | (x, e) :: es, known, bound => (evalCoupled calls e known bound).bind fun more v sub first =>
      (evalNamedCoupled calls es more (Cellular.grow sub bound)).bind fun _ vs later others =>
        .done (overCons ⟨trivial, Cellular.grow later first⟩ others)

end

instance : Cellular Frame where
  Over cells
    | .forEach _ items _ => Over cells items
    | _ => True
  grow {_ _ frame} sub based := by
    cases frame with
    | forEach x items body => exact Cellular.grow (a := items) sub based
    | _ => trivial

instance : Cellular Position where
  Over cells position := Over cells position.env ∧ Over cells position.stack
  grow sub based := ⟨Cellular.grow sub based.1, Cellular.grow sub based.2⟩

instance : Cellular Pause where
  Over cells
    | .yielded v _ position => Over cells v ∧ Over cells position
    | .returned v => Over cells v
  grow {_ _ pause} sub based := by
    cases pause with
    | yielded v into position => exact ⟨Cellular.grow sub based.1, Cellular.grow sub based.2⟩
    | returned v => exact Cellular.grow (a := v) sub based

instance : Cellular Progress where
  Over cells
    | .paused p => Over cells p
    | .going env stack => Over cells env ∧ Over cells stack
  grow {_ _ progress} sub based := by
    cases progress with
    | paused p => exact Cellular.grow (a := p) sub based
    | going env stack => exact ⟨Cellular.grow sub based.1, Cellular.grow sub based.2⟩

section
variable {e f : Env → Expr → Run Value} (evals : Evals K e f)
include evals

theorem cleanupCoupled {env : Env} (bound : Over known env) (steps : List Cleanup) :
    Coupled K known (runCleanup e env steps) (runCleanup f env steps) := by
  induction steps generalizing known with
  | nil => exact .done trivial
  | cons step steps ih =>
    cases step with
    | log value =>
      exact (evals known env value bound).bind fun more v sub _ =>
        (Coupled.event (.note v)).bind fun large _ later _ =>
          ih (Cellular.grow (sub.trans later) bound)
    | raise message =>
      exact (evals known env message bound).bind fun more v _ _ => .raise _

theorem leaveCoupled {env : Env} (bound : Over known env) (stack : List Frame)
    (pending : Option Fault) :
    Coupled K known (leave e env stack pending) (leave f env stack pending) := by
  induction stack generalizing known pending with
  | nil => exact .done fun _ _ => trivial
  | cons frame stack ih =>
    cases frame with
    | cleanup steps =>
      refine (cleanupCoupled evals bound steps).attempt.bind fun more r sub _ => ?_
      cases r with
      | ok _ => exact ih (Cellular.grow sub bound) pending
      | error fault => exact ih (Cellular.grow sub bound) (some fault)
    | statements body => exact ih bound pending
    | loop test body => exact ih bound pending
    | forEach x items body => exact ih bound pending

section
variable {α : Type} [Cellular α] {position : Position} (here : Over known position)
include here

theorem leaveRaisingCoupled (fault : Fault) :
    Coupled K known (leaveRaising e position fault : Run α) (leaveRaising f position fault) :=
  (leaveCoupled evals here.1 position.stack (some fault)).bind fun _ _ _ _ => .raise _

theorem leaveThenCoupled {x y : Run α} (last : Coupled K known x y) :
    Coupled K known (leaveThen e position x) (leaveThen f position y) :=
  (leaveCoupled evals here.1 position.stack none).bind fun more pending sub _ => by
    cases pending with
    | some fault => exact .raise fault
    | none => exact last.grow sub

theorem inBlockCoupled {x y : Run α} (inner : Coupled K known x y) :
    Coupled K known (inBlock e position x) (inBlock f position y) :=
  inner.attempt.bind fun more r sub inside => by
    cases r with
    | ok v => exact .done (overOk.mp inside)
    | error fault => exact leaveRaisingCoupled evals (Cellular.grow sub here) fault

end

omit evals in
theorem leavingCoupled {α : Type} [Cellular α] {x y : Run α} (inner : Coupled K known x y) :
    Coupled K known (fromGenerator x) (fromGenerator y) :=
  inner.attempt.bind fun _ r _ inside => by
    cases r with
    | ok v => exact .done (overOk.mp inside)
    | error fault => exact .raise fault.leaving

theorem progressCoupled {env : Env} (bound : Over known env) {stack : List Frame}
    (frames : Over known stack) :
    Coupled K known (progress e env stack) (progress f env stack) := by
  match stack with
  | [] => exact .done (by simp [Over])
  | .statements [] :: stack => exact .done ⟨bound, (List.forall_mem_cons.mp frames).2⟩
  | .statements (s :: body) :: stack =>
    have after : Over known (Frame.statements body :: stack) :=
      overCons trivial (List.forall_mem_cons.mp frames).2
    have here : Over known (Position.mk env (.statements body :: stack)) := ⟨bound, after⟩
    have value := fun expr => inBlockCoupled evals here (evals known env expr bound)
    cases s with
    | yield parser into =>
      exact (value parser).bind fun _ v sub based => .done ⟨based, Cellular.grow sub here⟩
    | assign x expr =>
      exact (value expr).bind fun _ v sub based =>
        .done ⟨Env.setOver (Cellular.grow sub bound) x based, Cellular.grow sub after⟩
    | ret expr =>
      exact (value expr).bind fun _ v sub based =>
        leaveThenCoupled evals (Cellular.grow sub here) (.done based)
    | log expr =>
      exact (value expr).bind fun _ v sub based => (Coupled.event (.note v)).bind
        fun _ _ later _ => .done ⟨Cellular.grow (sub.trans later) bound,
          Cellular.grow (sub.trans later) after⟩
    | raise message =>
      exact (value message).bind fun _ v sub based =>
        leaveRaisingCoupled evals (Cellular.grow sub here) _
    | cond test yes no =>
      exact (value test).bind fun _ v sub based => .done ⟨Cellular.grow sub bound,
        overCons trivial (Cellular.grow sub after)⟩
    | loop test body => exact .done ⟨bound, overCons trivial after⟩
    | forEach x items body =>
      have elements := inBlockCoupled evals here ((evals known env items bound).bind
        fun _ v _ based => Coupled.ofExcept (Value.elementsOver based))
      exact elements.bind fun _ vs sub based => .done ⟨Cellular.grow sub bound,
        overCons based (Cellular.grow sub after)⟩
    | protect body steps =>
      exact .done ⟨bound, overCons trivial (overCons trivial after)⟩
  | .loop test body :: stack =>
    obtain ⟨_, others⟩ := List.forall_mem_cons.mp frames
    have here : Over known (Position.mk env stack) := ⟨bound, others⟩
    refine (inBlockCoupled evals here (evals known env test bound)).bind fun _ v sub _ => ?_
    split
    · exact .done ⟨Cellular.grow sub bound,
        overCons trivial (overCons trivial (Cellular.grow sub others))⟩
    · exact .done ⟨Cellular.grow sub bound, Cellular.grow sub others⟩
  | .forEach x [] body :: stack => exact .done ⟨bound, (List.forall_mem_cons.mp frames).2⟩
  | .forEach x (v :: items) body :: stack =>
    obtain ⟨each, others⟩ := List.forall_mem_cons.mp frames
    obtain ⟨first, further⟩ := List.forall_mem_cons.mp each
    exact .done ⟨Env.setOver bound x first, overCons trivial (overCons further others)⟩
  | .cleanup steps :: stack =>
    obtain ⟨_, others⟩ := List.forall_mem_cons.mp frames
    have here : Over known (Position.mk env stack) := ⟨bound, others⟩
    exact (inBlockCoupled evals here (cleanupCoupled evals bound steps)).bind fun _ _ sub _ =>
      .done ⟨Cellular.grow sub bound, Cellular.grow sub others⟩

theorem advanceCoupled (limit : Nat) {env : Env} (bound : Over known env) {stack : List Frame}
    (frames : Over known stack) :
    Coupled K known (advance e (limit + K.ahead) env stack) (advance f limit env stack) := by
  induction limit generalizing env stack known with
  | zero =>
    refine .cut fun level => ?_
    rw [level]
    rfl
  | succ limit ih =>
    rw [Nat.add_right_comm]
    refine (progressCoupled evals bound frames).bind fun more p sub inside => ?_
    cases p with
    | paused p => exact .done inside
    | going env stack => exact ih inside.1 inside.2

omit evals in
theorem receiveOver {env : Env} (bound : Over known env) (into : Option String) {v : Value}
    (based : Over known v) : Over known (env.receive into v) := by
  cases into with
  | none => exact bound
  | some x => exact Env.setOver bound x based

section
variable {a b : Value → Parser Value Store Value}
  (applies : ∀ known p, Over known p → Parallel K known (a p) (b p))
include applies

theorem resumeCoupled {again again' : Env → List Frame → Value → Run (Outcome Value Value)}
    (rounds : ∀ more env stack x, Over more env → Over more stack → Over more x →
      Coupled K more (again env stack x) (again' env stack x))
    {x : Value} (input : Over known x) {p : Pause} (pause : Over known p) :
    Coupled K known (resume e a again x p) (resume f b again' x p) := by
  cases p with
  | returned v => exact .done (overSuccess.mpr ⟨pause, input⟩)
  | yielded v into position =>
    obtain ⟨parser, here⟩ := pause
    simp only [resume]
    split
    · refine (applies known v parser known x subset_rfl input).bind fun more o sub inside => ?_
      cases o with
      | failure =>
        exact leavingCoupled (leaveThenCoupled evals (Cellular.grow sub here) (.done overFailure))
      | success w rest =>
        obtain ⟨value, left⟩ := overSuccess.mp inside
        have position := Cellular.grow sub here
        exact rounds more _ _ rest (receiveOver position.1 into value) position.2 left
    · exact leavingCoupled (leaveThenCoupled evals here (.raise _))

theorem driveCoupled (limit : Nat) {env : Env} (bound : Over known env) {stack : List Frame}
    (frames : Over known stack) {x : Value} (input : Over known x) :
    Coupled K known (drive e a (limit + K.ahead) env stack x) (drive f b limit env stack x) := by
  induction limit generalizing env stack x known with
  | zero =>
    refine .cut fun level => ?_
    rw [level]
    rfl
  | succ limit ih =>
    rw [Nat.add_right_comm]
    exact (leavingCoupled (advanceCoupled evals limit bound frames)).bind fun more p sub pause =>
      resumeCoupled evals applies (fun _ _ _ _ bound frames input => ih bound frames input)
        (Cellular.grow sub input) pause

end
end

section
variable {α : Type}

theorem readingParallel {onTexts : Parser Text Store α}
    (answers : ∀ text, ∃ o, onTexts text = pure o) {value : α → Value}
    (plain : ∀ known a, Over known (value a)) {p q : Parser Value Store Value}
    (others : Parallel K known p q) :
    Parallel K known (reading onTexts value p) (reading onTexts value q) := by
  intro more x grown input
  cases x with
  | str text =>
    obtain ⟨o, same⟩ := answers text
    simp only [reading, same]
    cases o with
    | failure => exact .done overFailure
    | success a rest => exact .done (overSuccess.mpr ⟨plain more a, by simp⟩)
  | _ => exact others more _ grown input

theorem readsAnswers {onTexts : Eff Store (Outcome Text α)}
    {read : α → Text → Prop} (reads : Reads onTexts read) : ∃ o, onTexts = pure o := by
  cases reads with
  | fits v rest same only => exact ⟨_, same⟩
  | fails same none => exact ⟨_, same⟩

end

theorem elementParallel : Parallel K known element element := by
  intro more x grown input
  unfold element
  split
  · simp only [overValue, Value.Inside, List.forall_mem_cons] at input
    exact .done (overSuccess.mpr ⟨input.1, by simpa using input.2⟩)
  · simp only [overValue, Value.Inside, List.forall_mem_cons] at input
    exact .done (overSuccess.mpr ⟨input.1, by simpa using input.2⟩)
  · split
    · exact .raise _
    · exact .done overFailure

theorem elementEqualParallel (v : Value) :
    Parallel K known (elementEqual v) (elementEqual v) :=
  elementParallel.filterM fun _ _ _ _ => .done trivial

theorem elementHashedParallel (test : Value → Bool) :
    Parallel K known (elementHashed test) (elementHashed test) :=
  elementParallel.filterM fun _ _ _ based => (Coupled.ofExcept (Value.hashedOver based)).bind
    fun _ _ _ _ => .done trivial

theorem satParallel (test : Char → Bool) {p q : Parser Value Store Value}
    (others : Parallel K known p q) :
    Parallel K known (reading (Parser.sat test) .ofChar p)
      (reading (Parser.sat test) .ofChar q) :=
  readingParallel (fun text => readsAnswers (Reads.sat test text))
    (fun _ _ => by simp [Value.ofChar]) others

theorem itemParallel : Parallel K known item item := by
  refine readingParallel (fun text => ?_) (fun _ _ => by simp [Value.ofChar]) elementParallel
  cases text with
  | nil => exact ⟨_, rfl⟩
  | cons c rest => exact ⟨_, rfl⟩

theorem eofParallel : Parallel K known eof eof := by
  refine readingParallel (fun text => ?_) (fun _ _ => by simp) ?_
  · cases text with
    | nil => exact ⟨_, rfl⟩
    | cons c rest => exact ⟨_, rfl⟩
  · intro more x grown input
    dsimp only
    split
    · exact .done overFailure
    · exact .done (overSuccess.mpr ⟨by simp, input⟩)

theorem elementDigitsParallel (limit least : Nat) :
    Parallel K known (elementDigits (limit + K.ahead) least) (elementDigits limit least) :=
  ((elementHashedParallel _).repeated limit least).map fun _ _ _ => by simp

theorem numParallel (limit : Nat) : Parallel K known (num (limit + K.ahead)) (num limit) := by
  refine readingParallel (fun text => readsAnswers (numReads text)) (fun _ _ => by simp) ?_
  have mark (c : Char) : Parallel K known (elementText c) (elementText c) :=
    (elementEqualParallel _).map fun _ _ _ => overText
  have numeral := (mark '-').numeralOf (mark '.') (elementDigitsParallel limit 0)
    (elementDigitsParallel limit 1)
  exact (numeral.bind fun _ text _ _ => .converted _ text).map fun _ _ _ => by simp

theorem anyWordCoupled {words : List Value} (based : Over known words) (text : Text)
    (more : List Value) :
    Coupled K known (anyWord words text more) (anyWord words text more) := by
  induction more with
  | nil => exact .done overFailure
  | cons v more ih =>
    cases v with
    | str w =>
      unfold anyWord
      split
      · exact .done (overSuccess.mpr ⟨by simpa using based, by simp⟩)
      · exact ih
    | _ => exact .raise _

theorem stringParallel {word : Value} (based : Over known word) :
    Parallel K known (string word) (string word) := by
  intro more x grown input
  cases x with
  | str text =>
    cases word with
    | str w =>
      refine readingParallel (fun text => ?_) (fun _ _ => by simp) Parallel.fail more _ grown input
      unfold Parser.string
      split
      · exact ⟨_, rfl⟩
      · exact ⟨_, rfl⟩
    | tuple words =>
      exact anyWordCoupled (Cellular.grow grown (by simpa using based)) text words
    | _ => exact .raise _
  | _ => exact .raise _

theorem traceElementsCoupled (label : Text) (make : List Value → Value)
    (keeps : ∀ vs, Over known vs → Over known (make vs)) {vs : List Value}
    (based : Over known vs) :
    Coupled K known (traceElements label make vs) (traceElements label make vs) :=
  (Coupled.event (.record _)).bind fun _ _ sub _ =>
    .done (overSuccess.mpr ⟨by simp, Cellular.grow sub (keeps vs based)⟩)

theorem traceParallel (label : Text) : Parallel K known (trace label) (trace label) := by
  intro more x grown input
  cases x with
  | str text =>
    simp only [trace, reading, Parser.trace]
    exact ((Coupled.event (.record _)).bind fun _ _ _ _ =>
      .done (v := Outcome.success () text) (by simp)).bind fun _ o _ _ => by
        cases o with
        | failure => exact .done overFailure
        | success v rest => exact .done (by simp)
  | list vs =>
    exact traceElementsCoupled label .list (fun _ inside => by simpa using inside)
      (by simpa using input)
  | tuple vs =>
    exact traceElementsCoupled label .tuple (fun _ inside => by simpa using inside)
      (by simpa using input)
  | _ => exact .raise _

theorem leafParallel (limit : Nat) (l : Leaf) :
    Parallel K known (l.parser (limit + K.ahead)) (l.parser limit) := by
  cases l with
  | item => exact itemParallel
  | fail => exact .fail
  | eof => exact eofParallel
  | num => exact numParallel limit
  | ofClass k => exact satParallel _ (elementHashedParallel _)

section
variable {a b : Applier} (applies : Appliers K a b)
include applies

theorem readByParallel {view : Value → Except Fault (Outcome Value Value)}
    (keeps : ∀ known v, Over known v → Over known (view v)) {p : Value} (based : Over known p) :
    Parallel K known (readBy a view p) (readBy b view p) := fun more x grown input =>
  (applies more p x (Cellular.grow grown based) input).bind fun _ v _ inside =>
    .ofExcept (keeps _ v inside)

theorem readParallel {p : Value} (based : Over known p) :
    Parallel K known (read a p) (read b p) :=
  readByParallel applies (fun _ _ inside => Value.outcomeOver inside _) based

theorem readRestParallel {p : Value} (based : Over known p) :
    Parallel K known (readRest a p) (readRest b p) :=
  readByParallel applies (fun _ _ inside => Value.outcomeOver inside _) based

theorem readPartsParallel {p : Value} (based : Over known p) :
    Parallel K known (readParts a p) (readParts b p) :=
  readByParallel applies (fun _ _ inside => Value.outcomeByPartsOver inside) based

theorem readWithParallel (operation : String) {p : Value} (based : Over known p) :
    Parallel K known (readWith a operation p) (readWith b operation p) := by
  cases p with
  | parser m g => exact readParallel applies based
  | _ => exact fun _ _ _ _ => .raise _

theorem separatorParallel {p sep : Value} (operand : Over known p) (based : Over known sep) :
    Parallel K known (separator a p sep) (separator b p sep) := by
  cases sep with
  | parser m g => exact readParallel applies based
  | _ => exact (readParallel applies operand).bind fun _ _ _ _ _ _ _ _ => .raise _

theorem firstOfCoupled {ps : List Value} (based : Over known ps) {x : Value}
    (input : Over known x) : Coupled K known (firstOf a ps x) (firstOf b ps x) := by
  induction ps generalizing known with
  | nil => exact .done (by simp)
  | cons p ps ih =>
    obtain ⟨first, others⟩ := List.forall_mem_cons.mp based
    cases ps with
    | nil => exact applies known p x first input
    | cons q ps =>
      refine (applies known p x first input).bind fun more r sub inside => ?_
      split
      · exact .done inside
      · exact ih (Cellular.grow sub others) (Cellular.grow sub input)

end

theorem giveCoupled {p q : Parser Value Store Value} (parallel : Parallel K known p q) {x : Value}
    (input : Over known x) : Coupled K known (give p x) (give q x) :=
  (parallel known x subset_rfl input).bind fun _ _ _ inside =>
    .done (Value.ofOutcomeOver inside)

theorem joinTextsCoupled (vs : List Value) :
    Coupled K known (joinTexts vs) (joinTexts vs) := by
  unfold joinTexts
  split
  · exact .done (by simp)
  · exact .raise _

theorem collectCoupled (collect : Collect) {vs : List Value} (based : Over known vs) :
    Coupled K known (collect.apply vs) (collect.apply vs) := by
  cases collect with
  | asList => exact .done (by simpa using based)
  | joined => exact joinTextsCoupled vs
  | dropped => exact .done (by simp)

theorem applyWithCoupled {a b : Applier} (applies : Appliers K a b) {c d : Caller}
    (calls : Callers K c d) (limit : Nat) {g : Grammar} (unshared : ∀ id, g ≠ .shared id)
    (based : Over known g) {x : Value} (input : Over known x) :
    Coupled K known (g.applyWith a c (limit + K.ahead) x) (g.applyWith b d limit x) := by
  have evals : Evals K (evalWith c) (evalWith d) :=
    fun known env e bound => evalCoupled calls e known bound
  have reads := fun {known p} => @readParallel K known a b applies p
  have rests := fun {known p} => @readRestParallel K known a b applies p
  have parts := fun {known p} => @readPartsParallel K known a b applies p
  have called : ∀ more f v, Over more f → Over more v →
      Coupled K more (c f [v] []) (d f [v] []) := fun more f v function inside =>
    calls more f [v] [] function (by simpa using inside) (by simp)
  simp only [overGrammar] at based
  cases g with
  | leaf l => exact giveCoupled (leafParallel limit l) input
  | ret v => exact giveCoupled (.ret (by simpa using based)) input
  | char v => exact giveCoupled (satParallel _ (elementEqualParallel v)) input
  | string word => exact giveCoupled (stringParallel (by simpa using based)) input
  | oneOf members => exact giveCoupled (satParallel _ (elementHashedParallel _)) input
  | noneOf members => exact giveCoupled (satParallel _ (elementHashedParallel _)) input
  | sat test =>
    refine giveCoupled (itemParallel.filterM fun more v sub inside => ?_) input
    have function : Over more test := Cellular.grow sub (by simpa using based)
    exact (called more test v function inside).bind fun _ _ _ _ => .done trivial
  | trace label => exact giveCoupled (traceParallel label) input
  | bind p f =>
    simp only [Grammar.Inside] at based
    refine (reads based.1 known x subset_rfl input).bind fun more o sub inside => ?_
    cases o with
    | failure => exact .done (by simp)
    | success v rest =>
      obtain ⟨value, left⟩ := overSuccess.mp inside
      exact (called more f v (Cellular.grow sub based.2) value).bind fun large q later parser =>
        applies large q rest parser (Cellular.grow later left)
  | map p f =>
    simp only [Grammar.Inside] at based
    exact giveCoupled ((reads based.1).mapM fun more v sub inside =>
      called more f v (Cellular.grow sub based.2) inside) input
  | choice ps => exact firstOfCoupled applies (by simpa using based) input
  | option default p =>
    simp only [Grammar.Inside] at based
    refine (applies known p x based.2 input).bind fun more r sub inside => ?_
    split
    · exact .done inside
    · have kept : Over more default := Cellular.grow sub based.1
      have same : Over more x := Cellular.grow sub input
      exact .done (by simpa using ⟨kept, same⟩)
  | pair p q =>
    simp only [Grammar.Inside] at based
    exact giveCoupled (((rests based.1).pair (reads based.2)).map fun _ v inside => by
      simpa using inside) input
  | keepRight p q =>
    simp only [Grammar.Inside] at based
    refine (reads based.1 known x subset_rfl input).bind fun more o sub inside => ?_
    cases o with
    | failure => exact .done (by simp)
    | success v rest =>
      exact applies more q rest (Cellular.grow sub based.2) (overSuccess.mp inside).2
  | keepLeft p q =>
    simp only [Grammar.Inside] at based
    exact giveCoupled ((reads based.1).keepLeft (readWithParallel applies "map" based.2)) input
  | repeated least collect p =>
    exact giveCoupled (((reads (by simpa using based)).repeated limit least).mapM
      fun more vs sub inside => collectCoupled collect inside) input
  | sequenceText ps =>
    refine giveCoupled (Parallel.mapM (Parallel.sequenceFrom (fun p mem => ?_) (by simp))
      fun more vs sub inside => joinTextsCoupled vs) input
    exact reads (by simp only [Grammar.Inside] at based; exact based p mem)
  | count n p =>
    exact giveCoupled (((reads (by simpa using based)).countFrom (by simp) _).map
      fun _ vs inside => by simpa using inside) input
  | between opening closing p =>
    simp only [Grammar.Inside] at based
    exact giveCoupled ((reads based.1).between (readWithParallel applies "bind" based.2.1)
      (readWithParallel applies "bind" based.2.2)) input
  | optional p =>
    exact giveCoupled ((reads (by simpa using based)).optional.map fun _ _ _ => by simp) input
  | sepBy p sep =>
    simp only [Grammar.Inside] at based
    exact giveCoupled (((reads based.1).sepByWithin
      (separatorParallel applies based.1 based.2) limit).map fun _ vs inside => by
        simpa using inside) input
  | sepBy1 p sep =>
    simp only [Grammar.Inside] at based
    exact giveCoupled (((reads based.1).sepBy1Within
      (separatorParallel applies based.1 based.2) limit).map fun _ vs inside => by
        simpa using inside) input
  | chainl1 p op =>
    simp only [Grammar.Inside] at based
    refine giveCoupled ((parts based.1).bind fun more first sub inside => ?_) input
    refine Parallel.chainAfter (reads (Cellular.grow sub based.1))
      (rests (Cellular.grow sub based.2)) (fun large f v w _ function left right => ?_) limit inside
    exact calls large f [v, w] [] function (by simpa using ⟨left, right⟩) (by simp)
  | shared id => exact absurd rfl (unshared id)
  | block env body =>
    refine giveCoupled (fun more x grown input => ?_) input
    exact driveCoupled evals (fun known p inside => parts inside) limit
      (Cellular.grow grown (by simpa using based)) (by simp [Over]) input
  | raising fault => exact .raise _

theorem builtinCoupled (b : Builtin) {args : List Value} (based : Over known args) :
    Coupled K known (b.run args) (b.run args) := by
  have computed := b.computeOver based
  unfold Builtin.run
  split
  · obtain ⟨inside, _⟩ := List.forall_mem_cons.mp based
    exact (Coupled.event (.note _)).bind fun _ _ sub _ => .done (Cellular.grow sub inside)
  · exact .raise _
  · obtain ⟨inside, _⟩ := List.forall_mem_cons.mp based
    exact (Coupled.ofExcept (Value.hashedOver inside)).bind fun _ _ _ _ => .done (by simp)
  · split
    · exact .number _
    · rename_i v _ same
      exact .done (computed v same)
    · exact .raise _

theorem soleArgumentOver {args : List Value} (based : Over known args) {named : Env}
    (names : Over known named) : Over known (soleArgument args named) := by
  induction named generalizing args with
  | nil =>
    unfold soleArgument
    split
    · exact overOk.mpr (based _ (List.mem_singleton_self _))
    · exact overError
  | cons b named ih =>
    obtain ⟨here, others⟩ := List.forall_mem_cons.mp names
    unfold soleArgument
    split
    · split
      · exact ih (overCons here.2 (by simp)) others
      · exact overError
    · split
      · exact overError
      · exact overError

theorem callOtherCoupled {c d : Caller} (calls : Callers K c d) (limit : Nat) {f : Value}
    (other : ∀ mark g, f ≠ .parser mark g) (function : Over known f) {args : List Value}
    (based : Over known args) {named : Env} (names : Over known named) :
    Coupled K known (callWith c (limit + K.ahead) f args named) (callWith d limit f args named) := by
  cases f with
  | builtin b => exact builtinCoupled b based
  | lambda name params body env =>
    have bound := Env.bindAllOver (by simpa using function) names params based
    simp only [callWith]
    cases same : Env.bindAll env named params args with
    | ok env => exact evalCoupled calls body known (bound env same)
    | error x => exact .raise _
  | blockFn name params body env =>
    have bound := Env.bindAllOver (by simpa using function) names params based
    simp only [callWith]
    cases same : Env.bindAll env named params args with
    | ok env => exact .make (by simpa using bound env same)
    | error x => exact .make (by simp)
  | parser mark g => exact absurd rfl (other mark g)
  | _ => exact .raise _

end ParseKit.Script
