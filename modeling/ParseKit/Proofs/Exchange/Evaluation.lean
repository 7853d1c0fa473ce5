import ParseKit.Proofs.Exchange.Accord

/-! Evaluation of marked code along the code that is meant, and the steps of blocks. Where calls run
along each other so does all of this. -/
namespace ParseKit.Script

section
variable {X : Exchange} (K : Accord X)

def CallersAlong (c : Caller) (d : Nat → Caller) : Prop :=
  ∀ {f f' args args' named named'}, Value.Alike X f f' → AllAlike X args args' →
    Env.Alike X named named' →
      Along K (Value.Alike X) (c f args named) (fun n => d n f' args' named')

def EvalsAlong (e : Env → Expr → Run Value) (f : Nat → Env → Expr → Run Value) : Prop :=
  ∀ {env env' : Env} (expr : Expr), env.Alike X env' →
    Along K (Value.Alike X) (e env expr) (fun n => f n env' (expr.meant X.onRight))

def AppliersAlong (a : Applier) (b : Nat → Applier) : Prop :=
  ∀ {p p' x x'}, Value.Alike X p p' → Value.Alike X x x' →
    Along K (Value.Alike X) (a p x) (fun n => b n p' x')

end

section
variable {X : Exchange} {K : Accord X}

theorem literalAlong (l : Literal) : Along K (Value.Alike X) l.eval (fun _ => l.eval) := by
  cases l with
  | none => exact .done .none
  | bool b => exact .done (.bool b)
  | int n => exact .done (.int n)
  | float x => exact .number x
  | str s => exact .done (.str s)

theorem onlyParserAlong {v v' : Value} (alike : v.Alike X v') :
    Along K (fun w w' => w.Alike X w' ∧ w.isParser = true ∧ w'.isParser = true) (Value.onlyParser v)
      (fun _ => pure v') := by
  cases shaped : alike.shaped with
  | parser => exact .done ⟨alike, rfl, rfl⟩
  | _ => exact .short

theorem markMarks {M : Marking} {op : Binary} {a : Expr} {old : Text}
    (mark : M.mark? op a = some old) : M.marks old = true := by
  unfold Marking.mark? at mark
  split at mark
  · split at mark
    · cases mark
      assumption
    · cases mark
  · cases mark

theorem placeAlong {old : Text} (marked : X.marks old = true) {x : Run Value} {y : Nat → Run Value}
    (inner : Along K (fun v v' => v.Alike X v' ∧ v.isParser = true ∧ v'.isParser = true) x y) :
    Along K (Value.Alike X) (X.onLeft.place old x) (fun n => X.onRight.place old (y n)) := by
  have point (f : Text → Text) : Made.Alike X (.parser (.trace (f old))) (.parser (.trace (f old))) :=
    .parser (.trace _)
  unfold Marking.place
  simp only [Exchange.onLeft, Exchange.onRight]
  cases left : X.left with
  | none =>
    cases right : X.right with
    | none => exact inner.weaken fun _ _ => And.left
    | some f =>
      have lone : X.LoneRight (f old) := ⟨left, f, old, right, marked, rfl⟩
      have points : X.right ≠ none := by simp [right]
      refine .makeRight left points fun m => inner.bindRight fun v v' alike => ?_
      exact .makeRight left points (f := fun _ => pure) fun n =>
        .done (.pointRight lone alike.2.1 alike.1)
  | some f =>
    cases right : X.right with
    | none =>
      have lone : X.LoneLeft (f old) := ⟨right, f, old, left, marked, rfl⟩
      have points : X.left ≠ none := by simp [left]
      refine .makeLeft points right fun m => inner.bindLeft fun v v' alike => ?_
      exact .makeLeft points right (f := pure) fun n => .done (.pointLeft lone alike.2.2 alike.1)
    | some g =>
      obtain rfl := X.agree f g left right
      refine (Along.make (point f)).bind fun p p' first => inner.bind fun v v' alike => ?_
      exact .make (.parser (.keepRight first alike.1))

theorem meantMark (op : Binary) (a b : Expr) {d : Caller} {env : Env} {old : Text}
    {M : Marking} (mark : M.mark? op a = some old) :
    evalWith d env ((Expr.binary op a b).meant M) = M.place old (evalWith d env (b.meant M)) := by
  simp only [Expr.meant, mark, Marking.place]
  cases M.label with
  | none => rfl
  | some label => rfl

mutual

theorem evalAlong {c : Caller} {d : Nat → Caller} (calls : CallersAlong K c d) {env env' : Env}
    (bound : env.Alike X env') : (e : Expr) → Along K (Value.Alike X) (evalMarked X.onLeft c env e)
      (fun n => evalWith (d n) env' (e.meant X.onRight))
  | .lit l => literalAlong l
  | .list items => (evalAllAlong calls bound items).bind fun _ _ alike => .done (.list alike)
  | .tuple items => (evalAllAlong calls bound items).bind fun _ _ alike => .done (.tuple alike)
  | .var x => by
    have found := Env.Alike.find? x bound
    simp only [evalMarked, Expr.meant, evalWith]
    generalize env.find? x = o at found
    generalize env'.find? x = o' at found
    cases found with
    | none => exact .raise _
    | some alike => exact .done alike
  | .builtin b => .done (.builtin b)
  | .call f args named =>
    (evalAlong calls bound f).bind fun _ _ function =>
      (evalAllAlong calls bound args).bind fun _ _ given =>
        (evalNamedAlong calls bound named).bind fun _ _ names => calls function given names
  | .lambda params body => Along.name.bind fun _ _ _ => .done (.lambda bound)
  | .cond test yes no => (evalAlong calls bound test).bind fun v v' alike => by
    rw [Value.sameOfSeen Value.isTrueSeen alike.seen]
    cases v'.isTrue with
    | true => exact evalAlong calls bound yes
    | false => exact evalAlong calls bound no
  | .blockFn params body => Along.name.bind fun _ _ _ => .done (.blockFn bound)
  | .atom a => .done a.alike
  | .unary op a => (evalAlong calls bound a).bind fun _ _ alike =>
      (Along.ofResult (op.buildAlike alike)).bind fun _ _ made => .make made
  | .binary op a b => by
    have operand := evalAlong calls bound b
    cases mark : X.onLeft.mark? op a with
    | some old =>
      have mark' : X.onRight.mark? op a = some old := mark
      simp only [evalMarked, mark, meantMark op a b mark']
      refine placeAlong (markMarks mark) (operand.bindLeft fun v v' alike => onlyParserAlong alike)
    | none =>
      have mark' : X.onRight.mark? op a = none := mark
      simp only [evalMarked, mark, Expr.meant, mark']
      refine (evalAlong calls bound a).bind fun v v' left => operand.bind fun w w' right => ?_
      split
      · exact .short
      · next plain =>
          exact (Along.ofResult (op.buildAlike left right (Bool.eq_false_iff.mpr plain))).bind
            fun _ _ made => .make made
  | .between opening closing inner =>
    (evalAlong calls bound opening).bind fun _ _ left =>
      (evalAlong calls bound closing).bind fun _ _ right =>
        (evalAlong calls bound inner).bind fun _ _ middle =>
          (Along.ofResult (betweenAlike left right middle)).bind fun _ _ made => .make made
  | .lazy tag body => (Along.share tag body bound).bind fun _ _ same => .make (.parser (.shared same))
  | .run body => .make (.parser (.block bound body))

theorem evalAllAlong {c : Caller} {d : Nat → Caller} (calls : CallersAlong K c d) {env env' : Env}
    (bound : env.Alike X env') : (es : List Expr) →
      Along K (AllAlike X) (evalAllMarked X.onLeft c env es)
        (fun n => evalAllWith (d n) env' (meantAll X.onRight es))
  | [] => .done .nil
  | e :: es => (evalAlong calls bound e).bind fun _ _ first =>
      (evalAllAlong calls bound es).bind fun _ _ others => .done (.cons first others)

theorem evalNamedAlong {c : Caller} {d : Nat → Caller} (calls : CallersAlong K c d)
    {env env' : Env} (bound : env.Alike X env') : (es : List (String × Expr)) →
      Along K (Env.Alike X) (evalNamedMarked X.onLeft c env es)
        (fun n => evalNamedWith (d n) env' (meantNamed X.onRight es))
  | [] => .done .nil
  | (x, e) :: es => (evalAlong calls bound e).bind fun _ _ first =>
      (evalNamedAlong calls bound es).bind fun _ _ others => .done (.cons x first others)

end

end

end ParseKit.Script
