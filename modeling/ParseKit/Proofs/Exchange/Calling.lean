import ParseKit.Proofs.Exchange.Application
import ParseKit.Proofs.History.Forcing

/-! Calls in marked code along calls in the code that is meant. What the parsers of cells are, and
what parsers do that stand for each other, is left open. A trace point on one side only puts down a
record, and the parser behind it goes on as it would alone. -/
namespace ParseKit.Script

section
variable {X : Exchange} {K : Accord X}

def Builtin.answer (b : Builtin) (args : List Value) : Run Value :=
  match b.arithmetic? args, b.compute args with
  | some x, _ => Run.number x
  | none, some v => pure v
  | none, none => Eff.raise (b.refusal args)

theorem Builtin.runAlong (b : Builtin) {args args' : List Value} (given : AllAlike X args args') :
    Along K (Value.Alike X) (b.run args) (fun _ => b.run args') := by
  have computed : Along K (Value.Alike X) (b.answer args) (fun _ => b.answer args') := by
    unfold answer
    have value := b.computeAlike given
    rw [b.arithmeticAlike given, b.refusalAlike given]
    generalize b.compute args = o at value
    generalize b.compute args' = o' at value
    cases b.arithmetic? args' with
    | some x => exact .number x
    | none =>
      cases value with
      | none => exact .raise _
      | some alike => exact .done alike
  cases b with
  | log => cases given with
    | nil => exact computed
    | cons first others => cases others with
      | nil => exact (Along.note first).bind fun _ _ _ => .done first
      | cons => exact computed
  | raise kind => cases given with
    | nil => exact computed
    | cons first others => cases others with
      | nil => cases first.shaped with
        | str s => exact .raise _
        | _ => exact computed
      | cons => cases first.shaped <;> exact computed
  | holds k => cases given with
    | nil => exact computed
    | cons first others => cases others with
      | nil =>
        refine (Along.ofResult first.hashed).bind fun v v' alike => ?_
        rw [Value.sameOfSeen (Value.isInSeen k) alike.seen]
        exact .done (.bool _)
      | cons => exact computed
  | _ => exact computed

section
variable {c : Caller} {d : Nat → Caller} (calls : CallersAlong K c d)
include calls

theorem appliersAlong : AppliersAlong K (applyBy c) (fun n => applyBy (d n)) :=
  fun parsers inputs => calls parsers (.cons inputs .nil) .nil

theorem evalsAlong : EvalsAlong K (evalMarked X.onLeft c) (fun n => evalWith (d n)) :=
  fun expr bound => evalAlong calls bound expr

theorem callPlaceAlong (m : Nat) (n : Nat → Nat) {f f' : Value} (function : f.Alike X f')
    (other : ∀ mark g, f ≠ .parser mark g) {args args' : List Value} (given : AllAlike X args args')
    {named named' : Env} (names : named.Alike X named') :
    Along K (Value.Alike X) (callPlace X.onLeft c m f args named)
      (fun k => callWith (d k) (n k) f' args' named') := by
  cases function.shaped with
  | parser => exact absurd rfl (other _ _)
  | builtin b => exact b.runAlong given
  | @lambda _ _ params body env env' bound =>
    have binding := Env.Alike.bindAll bound names params given
    simp only [callPlace, callWith]
    generalize env.bindAll named params args = r at binding
    generalize env'.bindAll named' params args' = r' at binding
    cases binding with
    | ok bound => exact evalAlong calls bound _
    | error x => exact .raise _
  | @blockFn _ _ params body env env' bound =>
    have binding := Env.Alike.bindAll bound names params given
    simp only [callPlace, callWith]
    generalize env.bindAll named params args = r at binding
    generalize env'.bindAll named' params args' = r' at binding
    cases binding with
    | ok bound => exact .make (.parser (.block bound _))
    | error x => exact .make (.parser (.raising _))
  | _ => exact .raise _

theorem blockAlong {m : Nat} {n : Nat → Nat} (le : ∀ k, m ≤ n k) {env env' : Env}
    (bound : env.Alike X env') (body : List Stmt) {x x' : Value} (input : x.Alike X x') :
    Along K (Value.Alike X)
      (give (runBlock (evalMarked X.onLeft c) (readParts (applyBy c)) m env body) x)
      (fun k => give (runBlock (evalWith (d k)) (readParts (applyBy (d k))) (n k) env'
        (meantBody X.onRight body)) x') :=
  giveAlong (driveAlong (evalsAlong calls)
    (fun parsers inputs => readPartsAlong (appliersAlong calls) parsers .only _ _ trivial inputs)
    le bound (.cons (.statements body) .nil) input)

end

def Run.passed (label text : Text) : Run Unit :=
  Eff.report (.passed label (text.take Record.window) !(text.drop Record.window).isEmpty)

namespace Along
variable {α β : Type} {R : α → β → Prop} {x : Run α} {y : Nat → Run β} {label : Text}

theorem passedLeft (lone : X.LoneLeft label) (text : Text) (along : Along K R x y) :
    Along K R (Run.passed label text >>= fun _ => x) y :=
  fun _ s agree ended => along _ s (K.recordLeft _ _ lone agree) ended

theorem passedRight (lone : X.LoneRight label) (text : Text) (along : Along K R x y) :
    Along K R x (fun n => Run.passed label text >>= fun _ => y n) :=
  fun a _ agree ended => along a _ (K.recordRight _ _ lone agree) ended

end Along

section
variable {forcing : Caller → Nat → Name → Run Value} {M : Marking}
  {forcing' : Nat → Name → Run Value}

theorem pointFirst (limit : Nat) (m n : Mark) (label : Text) (p : Value) (text : Text) :
    callForcing forcing' (limit + 2) (.parser m (.keepRight (.parser n (.trace label)) p)) [.str text]
        [] = (do
      Run.passed label text
      callForcing forcing' (limit + 1) p [.str text] []) := rfl

theorem pointFirstMarked (limit : Nat) (m n : Mark) (label : Text) (p : Value) (text : Text) :
    callMarked M forcing (limit + 2) (.parser m (.keepRight (.parser n (.trace label)) p))
        [.str text] [] = (do
      Run.passed label text
      callMarked M forcing (limit + 1) p [.str text] []) := rfl

variable {p : Value} (parser : p.isParser = true)
include parser

theorem callForcingSole (limit : Nat) (args : List Value) (named : Env) :
    callForcing forcing' (limit + 1) p args named = (do
      let x ← Eff.ofExcept (soleArgument args named)
      callForcing forcing' (limit + 1) p [x] []) := by
  obtain ⟨mark, g, rfl⟩ := Value.parserOf parser
  cases g <;> rfl

theorem callMarkedOnTexts (limit : Nat) {x : Value} (other : x.isText = false) :
    callMarked M forcing (limit + 1) p [x] [] = Eff.exhausted := by
  obtain ⟨mark, g, rfl⟩ := Value.parserOf parser
  cases x with
  | str text => cases other
  | _ => rfl

theorem callMarkedSole (limit : Nat) (args : List Value) (named : Env) :
    callMarked M forcing (limit + 1) p args named = (do
      let x ← Eff.ofExcept (soleArgument args named)
      callMarked M forcing (limit + 1) p [x] []) := by
  obtain ⟨mark, g, rfl⟩ := Value.parserOf parser
  rfl

end

section
variable {forcing : Caller → Nat → Name → Run Value} {forcing' : Nat → Name → Run Value} {m : Nat}
  (calls : CallersAlong K (callMarked X.onLeft forcing m) (fun k => callForcing forcing' (k + m)))
  (forces : ∀ {id id'}, X.cells id id' → Along K (Value.Alike X)
    (forcing (callMarked X.onLeft forcing m) m id) (fun k => forcing' (k + m) id'))
  (swaps : ∀ {v v' : Value}, X.swapped v v' → ∀ text, Along K (Value.Alike X)
    (callMarked X.onLeft forcing (m + 1) v [.str text] [])
    (fun k => callForcing forcing' (k + m + 1) v' [.str text] []))
include calls forces

theorem grammarAlong {g g' : Grammar} (alike : g.Alike X g') (mark mark' : Mark) (text : Text) :
    Along K (Value.Alike X) (callMarked X.onLeft forcing (m + 1) (.parser mark g) [.str text] [])
      (fun k => callForcing forcing' (k + m + 1) (.parser mark' g') [.str text] []) := by
  have le : ∀ k, m ≤ k + m := fun k => Nat.le_add_left m k
  by_cases shared : ∃ id, g = .shared id
  · obtain ⟨id, rfl⟩ := shared
    cases alike with
    | shared same =>
      exact (forces same).bind fun _ _ parsers => calls parsers (.cons (.str text) .nil) .nil
  · by_cases block : ∃ env body, g = .block env body
    · obtain ⟨env, body, rfl⟩ := block
      cases alike with
      | block bound => exact blockAlong calls le bound body (.str text)
    · have unshared : ∀ id, g ≠ .shared id := by simpa using shared
      have unblocked : ∀ env body, g ≠ .block env body := by simpa using block
      have other : ∀ mark id, Value.parser mark' g' ≠ .parser mark (.shared id) := by
        rintro mark id same
        obtain ⟨_, rfl⟩ := Value.parser.inj same
        cases alike with
        | @shared id => exact shared ⟨id, rfl⟩
      have left : callMarked X.onLeft forcing (m + 1) (.parser mark g) [.str text] [] =
          g.applyWith (applyBy (callMarked X.onLeft forcing m)) (callMarked X.onLeft forcing m) m
            (.str text) := by
        exact congrFun (applyMarkedOther (callMarked X.onLeft forcing m) m unshared unblocked)
          (.str text)
      have right (k : Nat) : callForcing forcing' (k + m + 1) (.parser mark' g') [.str text] [] =
          g'.applyWith (applyBy (callForcing forcing' (k + m))) (callForcing forcing' (k + m)) (k + m)
            (.str text) := by
        rw [callForcingOther _ other]
        rfl
      simp only [left, right]
      exact applyAlong (appliersAlong calls) calls le alike unshared unblocked text

include swaps

theorem parserAlong : {v v' : Value} → v.Alike X v' → v.isParser = true → (text : Text) →
    Along K (Value.Alike X) (callMarked X.onLeft forcing (m + 1) v [.str text] [])
      (fun k => callForcing forcing' (k + m + 1) v' [.str text] [])
  | _, _, .parser alike, _, text => grammarAlong calls forces alike _ _ text
  | _, _, .swapped swapped, _, text => swaps swapped text
  | _, _, .pointRight lone parser alike, _, text => by
    -- The point takes one call more, and what stands behind it as many as alone.
    have alone := (parserAlong alike parser text).passedRight lone text
    refine .ofLater ?_
    simp only [Nat.succ_add, pointFirst]
    exact alone
  | _, _, .pointLeft lone _ alike, _, text => by
    cases m with
    | zero => exact .short
    | succ m =>
      have alone := ((calls alike (.cons (.str text) .nil) .nil).later).passedLeft lone text
      simp only [Nat.succ_add] at alone
      rw [pointFirstMarked]
      exact alone

end

theorem callsAlong {forcing : Caller → Nat → Name → Run Value} {forcing' : Nat → Name → Run Value}
    (forces : ∀ m, CallersAlong K (callMarked X.onLeft forcing m)
        (fun k => callForcing forcing' (k + m)) → ∀ {id id'}, X.cells id id' → Along K (Value.Alike X)
      (forcing (callMarked X.onLeft forcing m) m id) (fun k => forcing' (k + m) id'))
    (swaps : ∀ m, CallersAlong K (callMarked X.onLeft forcing m)
        (fun k => callForcing forcing' (k + m)) → ∀ {v v' : Value}, X.swapped v v' → ∀ text,
      Along K (Value.Alike X) (callMarked X.onLeft forcing (m + 1) v [.str text] [])
        (fun k => callForcing forcing' (k + m + 1) v' [.str text] [])) (m : Nat) :
    CallersAlong K (callMarked X.onLeft forcing m) (fun k => callForcing forcing' (k + m)) := by
  induction m with
  | zero => exact fun _ _ _ => .short
  | succ m calls =>
    intro f f' args args' named named' function given names
    by_cases parser : f.isParser = true
    · have parser' : f'.isParser = true := by
        obtain ⟨mark, g, rfl⟩ := Value.parserOf parser
        cases function.shaped
        rfl
      have right : (fun k => callForcing forcing' (k + (m + 1)) f' args' named') = fun k => (do
          let x ← Eff.ofExcept (soleArgument args' named')
          callForcing forcing' (k + m + 1) f' [x] []) :=
        funext fun k => callForcingSole parser' (k + m) args' named'
      rw [callMarkedSole parser, right]
      refine (Along.ofResult (soleArgumentAlike given names)).bind fun x x' input => ?_
      cases input.shaped with
      | str text => exact parserAlong calls (forces m calls) (swaps m calls) function parser text
      | _ =>
        rw [callMarkedOnTexts parser m rfl]
        exact .short
    · have other : ∀ mark g, f ≠ .parser mark g := by
        rintro mark g rfl
        exact parser rfl
      have other' : ∀ mark id, f' ≠ .parser mark (.shared id) := by
        rintro mark id rfl
        cases function.shaped
        exact parser rfl
      have right : (fun k => callForcing forcing' (k + (m + 1)) f' args' named') = fun k =>
          callWith (callForcing forcing' (k + m)) (k + m) f' args' named' :=
        funext fun k => by rw [← Nat.add_assoc, callForcingOther _ other']
      rw [callMarkedOther other, right]
      exact callPlaceAlong calls m (fun k => k + m) function other given names

end

end ParseKit.Script
