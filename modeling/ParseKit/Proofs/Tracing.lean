import ParseKit.Proofs.Exchange.Telling
import ParseKit.Proofs.History.Stores

/-! Tracing. A program is marked where trace points may stand, and read without them or with them. Its
wary run has nothing but parsers behind marks and nothing but texts before parsers, and does not
compare lists that both have things in them which equal only themselves. Main statement: where that
run ends so do both readings, with the same outcome or fault, and what they tell is the same but for
the records of the trace points, of which there is one for each time that one is applied, before all
that the parser behind it tells. -/
namespace ParseKit.Script
open Filter (atTop)

namespace Program
variable (M : Marking)

def meant (p : Program) : Program := ⟨meantNamed M p.definitions, meantNamed M p.bindings⟩

variable (limit : Nat)

def bindEachMarked (definitions : List Name) (env : Env) : List (String × Expr) → Run Env
  | [] => do
    Eff.modify (link definitions env)
    pure env
  | (x, e) :: more => do
    Eff.modify (link definitions env)
    let v ← evalMarked M (callMarked M (forceMarked M) limit) env e
    bindEachMarked definitions (env.set x v) more

def prepareMarked (p : Program) : Run Env := do
  let shared ← shareAll p.definitions
  bindEachMarked M limit (cellsOf shared) shared p.bindings

def applyExprMarked (env : Env) (e : Expr) (x : Value) : Run Value := do
  applyBy (callMarked M (forceMarked M) limit)
    (← evalMarked M (callMarked M (forceMarked M) limit) env e) x

def parseMarked (p : Program) (e : Expr) (text : Text) : Answer Value :=
  Run.answer do
    let env ← p.prepareMarked M limit
    checked (← applyExprMarked M limit env e (.str text))

end Program

section
variable {X : Exchange} {own : X.cells = Eq}

abbrev SharedAlike : Env → Env → Prop := List.Forall₂ fun bound bound' =>
  bound.1 = bound'.1 ∧ ∃ m n id, bound.2 = .parser m (.shared id) ∧ bound'.2 = .parser n (.shared id)

namespace SharedAlike

theorem alike (own : X.cells = Eq) {env env' : Env} (shared : SharedAlike env env') :
    env.Alike X env' := by
  induction shared with
  | nil => exact .nil
  | @cons bound bound' _ _ first _ ih =>
    obtain ⟨x, v⟩ := bound
    obtain ⟨y, v'⟩ := bound'
    obtain ⟨rfl, m, n, id, rfl, rfl⟩ := first
    exact .cons x (.parser (.shared (own ▸ rfl))) ih

theorem cells {env env' : Env} (shared : SharedAlike env env') :
    Program.cellsOf env = Program.cellsOf env' := by
  induction shared with
  | nil => rfl
  | @cons bound bound' _ _ first _ ih =>
    obtain ⟨x, v⟩ := bound
    obtain ⟨y, v'⟩ := bound'
    obtain ⟨rfl, m, n, id, rfl, rfl⟩ := first
    exact congrArg (id :: ·) ih

theorem set {env env' : Env} (shared : SharedAlike env env') (x : String) (m n : Mark) (id : Name) :
    SharedAlike (env.set x (.parser m (.shared id))) (env'.set x (.parser n (.shared id))) := by
  have here : x = x ∧ ∃ m' n' id', Value.parser m (.shared id) = .parser m' (.shared id') ∧
      Value.parser n (.shared id) = .parser n' (.shared id') := ⟨rfl, m, n, id, rfl, rfl⟩
  induction shared with
  | nil => exact .cons here .nil
  | @cons bound bound' _ _ first others ih =>
    obtain ⟨y, v⟩ := bound
    obtain ⟨z, v'⟩ := bound'
    obtain rfl : y = z := first.1
    simp only [Env.set]
    split
    · exact .cons here others
    · exact .cons first ih

end SharedAlike

namespace Program

theorem shareAllAlong (definitions : List (String × Expr)) :
    Along (X.telling own) SharedAlike (shareAll definitions)
      (fun _ => shareAll (meantNamed X.onRight definitions)) := by
  induction definitions with
  | nil => exact .done .nil
  | cons definition more ih =>
    refine (Along.share none definition.2 .nil).bind fun id id' same => ?_
    obtain rfl : id = id' := own ▸ same
    have made : Along (X.telling own)
        (fun p p' => ∃ m n, p = .parser m (.shared id) ∧ p' = .parser n (.shared id))
        (Run.make (.parser (.shared id))) (fun _ => Run.make (.parser (.shared id))) :=
      Along.name.bind fun _ _ _ => .done ⟨_, _, rfl, rfl⟩
    refine made.bind fun p p' both => ih.bind fun env env' others => ?_
    obtain ⟨m, n, rfl, rfl⟩ := both
    exact .done (others.set definition.1 m n id)

theorem linkAlong (definitions : List Name) {env env' : Env} (bound : env.Alike X env') :
    Along (X.telling own) (fun _ _ => True) (Eff.modify (link definitions env))
      (fun _ => Eff.modify (link definitions env')) := by
  refine fun a s alike _ => ⟨(.done (), link definitions env' s), .of_forall fun _ => rfl,
    .done ⟨alike.cell, fun id => ?_, alike.events⟩ trivial⟩
  have found := alike.cells id
  rw [cellLinked, cellLinked]
  generalize a.cell? id = o at found
  generalize s.cell? id = o' at found
  cases found with
  | none => exact .none
  | @some c c' cell =>
    have named : c.name = c'.name := own ▸ cell.name
    have linked : Cell.Alike X { c with env := env } { c' with env := env' } :=
      ⟨cell.name, cell.tag, cell.body, bound, cell.built⟩
    simp only [Option.map_some, ← named]
    split
    · exact .some (named ▸ linked)
    · exact .some cell

section
variable (unswapped : ∀ v v', ¬ X.swapped v v') (m : Nat)
include unswapped

theorem evalsMarkedAlong : EvalsAlong (X.telling own)
    (evalMarked X.onLeft (callMarked X.onLeft (forceMarked X.onLeft) m)) (fun k => eval (k + m)) :=
  evalsAlong (callAlong own unswapped m)

theorem bindEachAlong (definitions : List Name) {env env' : Env} (bound : env.Alike X env')
    (bindings : List (String × Expr)) :
    Along (X.telling own) (Env.Alike X) (bindEachMarked X.onLeft m definitions env bindings)
      (fun k => bindEachBy (call (k + m)) definitions env' (meantNamed X.onRight bindings)) := by
  induction bindings generalizing env env' with
  | nil => exact (linkAlong definitions bound).bind fun _ _ _ => .done bound
  | cons binding more ih =>
    exact (linkAlong definitions bound).bind fun _ _ _ =>
      (evalsMarkedAlong unswapped m binding.2 bound).bind fun _ _ value =>
        ih (.set binding.1 value bound)

theorem prepareAlong (p : Program) : Along (X.telling own) (Env.Alike X) (p.prepareMarked X.onLeft m)
    (fun k => (p.meant X.onRight).prepare (k + m)) :=
  (shareAllAlong p.definitions).bind fun shared shared' alike => by
    rw [alike.cells]
    exact bindEachAlong unswapped m (cellsOf shared') (alike.alike own) p.bindings

theorem applyExprAlong {env env' : Env} (bound : env.Alike X env') (e : Expr) (text : Text) :
    Along (X.telling own) (Value.Alike X) (applyExprMarked X.onLeft m env e (.str text))
      (fun k => applyExpr (k + m) env' (e.meant X.onRight) (.str text)) :=
  (evalsMarkedAlong unswapped m e bound).bind fun _ _ parser =>
    appliersAlong (callAlong own unswapped m) parser (.str text)

end

end Program

/- Answers that are seen alike, of which one tells more or less of such trace points. -/
structure Answer.SameBut (left right : Text → Prop) (p q : Answer Value) : Prop where
  exit : Exit.seen p.exit = Exit.seen q.exit
  events : Told left right p.events q.events

theorem answersFromEmpty (x : Run Value) :
    x.answer = ⟨(x .empty).1, (x .empty).2.events.toList⟩ := rfl

theorem joinedAnswers {x : Run Value} {q : Exit Value × Store}
    (joined : Joined (X.telling own) (Value.Alike X) (x .empty) q) : q.1 ≠ .exhausted ∧
      x.answer.SameBut X.LoneLeft X.LoneRight ⟨q.1, q.2.events.toList⟩ := by
  rw [answersFromEmpty]
  generalize x .empty = p at joined
  cases joined with
  | done agree alike => exact ⟨by simp, congrArg Exit.done alike.seen, agree.events⟩
  | raised agree => exact ⟨by simp, rfl, agree.events⟩

theorem parseAlong (own : X.cells = Eq) (unswapped : ∀ v v', ¬ X.swapped v v') {m : Nat}
    {p : Program} {e : Expr}
    {text : Text} (ends : (p.parseMarked X.onLeft m e text).exit ≠ .exhausted) :
    ∃ answer : Answer Value,
      (∀ᶠ n in atTop, (p.meant X.onRight).parse n (e.meant X.onRight) text = answer) ∧
        answer.exit ≠ .exhausted ∧
          (p.parseMarked X.onLeft m e text).SameBut X.LoneLeft X.LoneRight answer := by
  have along : Along (X.telling own) (Value.Alike X)
      (do
        let env ← p.prepareMarked X.onLeft m
        checked (← Program.applyExprMarked X.onLeft m env e (.str text)))
      (fun k => do
        let env ← (p.meant X.onRight).prepare (k + m)
        checked (← Program.applyExpr (k + m) env (e.meant X.onRight) (.str text))) :=
    (Program.prepareAlong unswapped m p).bind fun _ _ bound =>
      (Program.applyExprAlong unswapped m bound e text).bind fun _ _ alike =>
        (Along.ofResult (alike.outcome "value")).bind fun _ _ _ => .done alike
  have empty : Store.Alike X .empty .empty := ⟨rfl, fun _ => .none, .nil⟩
  obtain ⟨q, same, joined⟩ := along _ _ empty ends
  refine ⟨⟨q.1, q.2.events.toList⟩, ?_, joinedAnswers joined⟩
  rw [← Filter.map_add_atTop_eq_nat m, Filter.eventually_map]
  exact same.mono fun k run => by rw [← run]; rfl

end

def Exchange.tracing (marks : Text → Bool) (left right : Option (Text → Text))
    (agree : ∀ f g, left = some f → right = some g → f = g) : Exchange where
  marks := marks
  left := left
  right := right
  cells := Eq
  agree := agree
  swapped _ _ := False
  parsers := nothingSwapped

section
variable {left right : Text → Prop}

theorem Told.after {es fs gs : List Event} (same : Told (fun _ => False) (fun _ => False) es fs)
    (told : Told left right fs gs) : Told left right es gs := by
  induction told generalizing es with
  | nil =>
    cases same with
    | nil => exact .nil
    | left none => exact none.elim
  | @both e e' fs gs equal others ih =>
    cases same with
    | both first same => exact .both (first.trans equal) (ih same)
    | left none => exact none.elim
    | right none => exact none.elim
  | @left label more front cut fs gs others ih =>
    cases same with
    | @both e _ es _ first same =>
      cases e with
      | note v => cases first
      | record r =>
        cases first
        exact .left more front cut (ih same)
    | left none => exact none.elim
    | right none => exact none.elim
  | right more front cut _ ih => exact .right more front cut (ih same)

namespace Answer.SameBut
variable {p q r : Answer Value}

theorem symm (same : p.SameBut left right q) : q.SameBut right left p :=
  ⟨same.exit.symm, same.events.symm⟩

theorem after (first : p.SameBut (fun _ => False) (fun _ => False) q)
    (second : q.SameBut left right r) : p.SameBut left right r :=
  ⟨first.exit.trans second.exit, first.events.after second.events⟩

theorem weaken {left' right' : Text → Prop} (same : p.SameBut left right q)
    (lefts : ∀ label, left label → left' label) (rights : ∀ label, right label → right' label) :
    p.SameBut left' right' q := ⟨same.exit, same.events.weaken lefts rights⟩

end Answer.SameBut
end

def Added (marks : Text → Bool) (label : Text → Text) (l : Text) : Prop :=
  ∃ old, marks old = true ∧ l = label old

section
variable {marks : Text → Bool} {label : Text → Text} {reading : Option (Text → Text)} {m : Nat}
  {p : Program} {e : Expr} {text : Text}

theorem unmarked {here there : Option (Text → Text)} (same : here = none ∨ there ≠ none) (l : Text) :
    ¬ Lone marks here there l := by
  rintro ⟨nothing, f, old, point, _⟩
  rcases same with none | some
  · cases none.symm.trans point
  · exact some nothing

theorem loneAdded {here there : Option (Text → Text)} (points : here = some label) (l : Text)
    (lone : Lone marks here there l) : Added marks label l := by
  obtain ⟨_, f, old, point, marked, rfl⟩ := lone
  cases points.symm.trans point
  exact ⟨old, marked, rfl⟩

theorem tracingTransparent (either : reading = none ∨ reading = some label)
    (ends : (p.parseMarked ⟨marks, reading⟩ m e text).exit ≠ .exhausted) :
    (∃ plain traced : Answer Value,
      (∀ᶠ n in atTop, (p.meant ⟨marks, none⟩).parse n (e.meant ⟨marks, none⟩) text = plain) ∧
      (∀ᶠ n in atTop, (p.meant ⟨marks, some label⟩).parse n (e.meant ⟨marks, some label⟩) text =
        traced) ∧
      plain.exit ≠ .exhausted ∧ plain.SameBut (fun _ => False) (Added marks label) traced) ∧
    (∀ n env q l, eval n env (Expr.traced l q) = (do
      let point ← Run.make (.parser (.trace l))
      let q ← eval n env q
      Run.make (.parser (.keepRight point q)))) ∧
    ∀ n k k' l q text, apply (n + 2) (.parser k (.keepRight (.parser k' (.trace l)) q)) (.str text) =
      (do
        Run.passed l text
        apply (n + 1) q (.str text)) := by
  refine ⟨?_, fun _ _ _ _ => rfl, fun _ _ _ _ _ _ => rfl⟩
  have plainly := parseAlong (X := .tracing marks reading none nofun) rfl (fun _ _ => id) ends
  have agree : ∀ f g, reading = some f → some label = some g → f = g := by
    rintro f g rfl same
    rcases either with none | some
    · cases none
    · exact (Option.some.inj some).trans (Option.some.inj same)
  have traced := parseAlong (X := .tracing marks reading (some label) agree) rfl (fun _ _ => id) ends
  obtain ⟨plain, ends, ended, same⟩ := plainly
  obtain ⟨traced, ends', _, same'⟩ := traced
  refine ⟨plain, traced, ends, ends', ended, ?_⟩
  rcases either with rfl | rfl
  · exact (same.weaken (unmarked (.inl rfl)) (unmarked (.inl rfl))).symm.after
      (same'.weaken (unmarked (.inl rfl)) (loneAdded rfl))
  · exact ((same'.weaken (unmarked (.inr nofun)) (unmarked (.inr nofun))).symm.after
      (same.weaken (loneAdded rfl) (unmarked (.inl rfl)))).symm

end

def nesting : Program :=
  ⟨[("nest", .binary .keepLeft
    (.binary .keepRight (.traced "mark".toList (.unary .char (.lit (.str ['(']))))
      (.unary .optional (.var "nest")))
    (.unary .char (.lit (.str [')']))))], []⟩

def isMark (l : Text) : Bool := l == "mark".toList

theorem nestingTraced :
    (nesting.parseMarked ⟨isMark, none⟩ 12 (.var "nest") "(())".toList).exit ≠ .exhausted ∧
    ∃ plain traced : Answer Value,
      (∀ᶠ n in atTop, (nesting.meant ⟨isMark, none⟩).parse n (.var "nest") "(())".toList = plain) ∧
      (∀ᶠ n in atTop, (nesting.meant ⟨isMark, some fun _ => "open".toList⟩).parse n (.var "nest")
        "(())".toList = traced) ∧
      plain.exit ≠ .exhausted ∧
        plain.SameBut (fun _ => False) (Added isMark fun _ => "open".toList) traced := by
  have ended : (nesting.parseMarked ⟨isMark, none⟩ 12 (.var "nest") "(())".toList).exit =
    .done (.success .none (.str [])) := rfl
  have ends := ended.trans_ne (nofun : Exit.done _ ≠ .exhausted)
  exact ⟨ends, (tracingTransparent (.inl rfl) ends).1⟩

end ParseKit.Script
