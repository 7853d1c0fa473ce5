import ParseKit.Proofs.Block.Leaving
import ParseKit.Script.Application

/-! A larger limit keeps every answer: calls, evaluations, blocks and applications of parsers
answer the same wherever a smaller limit lets them answer at all. -/
namespace ParseKit.Script
open Eff (Below)

def CallerBelow (c d : Caller) : Prop := ∀ f args named, Below (c f args named) (d f args named)

def EvalBelow (e f : Env → Expr → Run Value) : Prop := ∀ env expr, Below (e env expr) (f env expr)

def ApplierBelow (a b : Applier) : Prop := ∀ p x, Below (a p x) (b p x)

theorem EvalBelow.refl (eval : Env → Expr → Run Value) : EvalBelow eval eval :=
  fun _ _ => .refl _

theorem ApplierBelow.refl (apply : Applier) : ApplierBelow apply apply := fun _ _ => .refl _

mutual

theorem evalBelow {c d : Caller} (calls : CallerBelow c d) (env : Env) :
    (e : Expr) → Below (evalWith c env e) (evalWith d env e)
  | .lit _ | .var _ | .builtin _ | .lambda .. | .blockFn .. | .atom _ | .lazy .. | .run _ =>
    .refl _
  | .list items => (evalAllBelow calls env items).bind fun _ => .refl _
  | .tuple items => (evalAllBelow calls env items).bind fun _ => .refl _
  | .call f args named =>
    (evalBelow calls env f).bind fun f => (evalAllBelow calls env args).bind fun args =>
      (evalNamedBelow calls env named).bind fun named => calls f args named
  | .cond test yes no => (evalBelow calls env test).bind fun v => by
    cases v.isTrue with
    | true => exact evalBelow calls env yes
    | false => exact evalBelow calls env no
  | .unary _ a => (evalBelow calls env a).bind fun _ => .refl _
  | .binary _ a b =>
    (evalBelow calls env a).bind fun _ => (evalBelow calls env b).bind fun _ => .refl _
  | .between opening closing inner =>
    (evalBelow calls env opening).bind fun _ => (evalBelow calls env closing).bind fun _ =>
      (evalBelow calls env inner).bind fun _ => .refl _

theorem evalAllBelow {c d : Caller} (calls : CallerBelow c d) (env : Env) :
    (es : List Expr) → Below (evalAllWith c env es) (evalAllWith d env es)
  | [] => .refl _
  | e :: es =>
    (evalBelow calls env e).bind fun _ => (evalAllBelow calls env es).bind fun _ => .refl _

theorem evalNamedBelow {c d : Caller} (calls : CallerBelow c d) (env : Env) :
    (es : List (String × Expr)) → Below (evalNamedWith c env es) (evalNamedWith d env es)
  | [] => .refl _
  | (_, e) :: es =>
    (evalBelow calls env e).bind fun _ => (evalNamedBelow calls env es).bind fun _ => .refl _

end

section
variable {e f : Env → Expr → Run Value} (evals : EvalBelow e f)
include evals

theorem runCleanupBelow (env : Env) (steps : List Cleanup) :
    Below (runCleanup e env steps) (runCleanup f env steps) := by
  induction steps with
  | nil => exact .refl _
  | cons step steps ih =>
    cases step with
    | log value => exact (evals env value).bind fun _ => (Below.refl _).bind fun _ => ih
    | raise message => exact (evals env message).bind fun _ => .refl _

theorem leaveBelow (env : Env) (stack : List Frame) (pending : Option Fault) :
    Below (leave e env stack pending) (leave f env stack pending) := by
  induction stack generalizing pending with
  | nil => exact .refl _
  | cons frame stack ih =>
    cases frame with
    | cleanup steps =>
      exact (runCleanupBelow evals env steps).attempt.bind fun
        | .ok () => ih pending
        | .error fault => ih (some fault)
    | statements body => exact ih pending
    | loop test body => exact ih pending
    | forEach x items body => exact ih pending

theorem leaveRaisingBelow {α : Type} (position : Position) (fault : Fault) :
    Below (leaveRaising e position fault : Run α) (leaveRaising f position fault) :=
  (leaveBelow evals position.env position.stack (some fault)).bind fun _ => .refl _

theorem leaveThenBelow {α : Type} (position : Position) {next next' : Run α}
    (last : Below next next') : Below (leaveThen e position next) (leaveThen f position next') :=
  (leaveBelow evals position.env position.stack none).bind fun
    | some _ => .refl _
    | none => last

theorem inBlockBelow {α : Type} (position : Position) {x y : Run α} (inner : Below x y) :
    Below (inBlock e position x) (inBlock f position y) :=
  inner.attempt.bind fun
    | .ok _ => .refl _
    | .error fault => leaveRaisingBelow evals position fault

theorem progressBelow (env : Env) (stack : List Frame) :
    Below (progress e env stack) (progress f env stack) := by
  match stack with
  | [] => exact .refl _
  | .statements [] :: stack => exact .refl _
  | .statements (s :: body) :: stack =>
    cases s with
    | yield parser into => exact (inBlockBelow evals _ (evals env parser)).bind fun _ => .refl _
    | assign x value => exact (inBlockBelow evals _ (evals env value)).bind fun _ => .refl _
    | ret value =>
      exact (inBlockBelow evals _ (evals env value)).bind fun _ =>
        leaveThenBelow evals _ (.refl _)
    | log value => exact (inBlockBelow evals _ (evals env value)).bind fun _ => .refl _
    | raise message =>
      exact (inBlockBelow evals _ (evals env message)).bind fun _ => leaveRaisingBelow evals _ _
    | cond test yes no => exact (inBlockBelow evals _ (evals env test)).bind fun _ => .refl _
    | forEach x items body =>
      exact (inBlockBelow evals _ ((evals env items).bind fun _ => .refl _)).bind fun _ => .refl _
    | loop test body => exact .refl _
    | protect body steps => exact .refl _
  | .loop test body :: stack =>
    exact (inBlockBelow evals _ (evals env test)).bind fun _ => .refl _
  | .forEach x [] body :: stack => exact .refl _
  | .forEach x (v :: items) body :: stack => exact .refl _
  | .cleanup steps :: stack =>
    exact (inBlockBelow evals _ (runCleanupBelow evals env steps)).bind fun _ => .refl _

theorem advanceBelow {m n : Nat} (le : m ≤ n) (env : Env) (stack : List Frame) :
    Below (advance e m env stack) (advance f n env stack) := by
  induction m generalizing n env stack with
  | zero => exact .exhausted _
  | succ m ih =>
    cases n with
    | zero => omega
    | succ n =>
      have le : m ≤ n := by omega
      exact (progressBelow evals env stack).bind fun
        | .paused _ => .refl _
        | .going env stack => ih le env stack

section
variable {σ : Type} {a b : Value → Parser σ Store Value}

theorem resumeBelow (applies : ∀ v, Parser.Below (a v) (b v))
    {again again' : Env → List Frame → σ → Run (Outcome σ Value)}
    (rounds : ∀ env stack input, Below (again env stack input) (again' env stack input))
    (input : σ) (p : Pause) : Below (resume e a again input p) (resume f b again' input p) := by
  cases p with
  | returned v => exact .refl _
  | yielded v into position =>
    simp only [resume]
    cases v.isCallable with
    | true =>
      refine (applies v input).bind fun
        | .failure => leavingBelow (leaveThenBelow evals position (.refl _))
        | .success _ rest => ?_
      exact rounds _ _ rest
    | false => exact leavingBelow (leaveThenBelow evals position (.refl _))

theorem driveBelow (applies : ∀ v, Parser.Below (a v) (b v)) {m n : Nat} (le : m ≤ n)
    (env : Env) (stack : List Frame) (input : σ) :
    Below (drive e a m env stack input) (drive f b n env stack input) := by
  induction m generalizing n env stack input with
  | zero => exact .exhausted _
  | succ m ih =>
    cases n with
    | zero => omega
    | succ n =>
      have le : m ≤ n := by omega
      exact (leavingBelow (advanceBelow evals le env stack)).bind fun p =>
        resumeBelow evals applies (ih le) input p

end

theorem buildBelow (tag : Option Text) (body : Expr) (env : Env) :
    Below (build e tag body env) (build f tag body env) := by
  cases tag with
  | none => exact evals env body
  | some t => exact (Below.refl _).bind fun _ => evals env body

omit evals in
theorem buildingBelow {α : Type} (id : Name) {x y : Run α} (below : Below x y) :
    Below (Run.building id x) (Run.building id y) := by
  intro w
  rcases below (w.naming (.inner id w.name.stage 0 0)) with same | short
  · left
    simp only [Run.building, same]
  · exact .inr short

theorem forceBelow (id : Name) : Below (force e id) (force f id) :=
  (Below.refl (Run.cell? id)).bind fun
    | none => .refl _
    | some ⟨_, _, _, _, some _⟩ => .refl _
    | some ⟨_, tag, body, env, none⟩ =>
      (buildingBelow id (buildBelow evals tag body env)).bind fun _ => .refl _

end

section
variable {a b : Applier} (applies : ApplierBelow a b)
include applies

theorem readByBelow (view : Value → Except Fault (Outcome Value Value)) (p : Value) :
    Parser.Below (readBy a view p) (readBy b view p) := fun x =>
  (applies p x).bind fun _ => .refl _

theorem readWithBelow (operation : String) (p : Value) :
    Parser.Below (readWith a operation p) (readWith b operation p) := by
  cases p with
  | parser m g => exact readByBelow applies _ _
  | _ => exact .refl _

theorem firstOfBelow (ps : List Value) (x : Value) :
    Below (firstOf a ps x) (firstOf b ps x) := by
  match ps with
  | [] => exact .refl _
  | [p] => exact applies p x
  | p :: q :: ps =>
    refine (applies p x).bind fun r => ?_
    split
    · exact .refl _
    · exact firstOfBelow (q :: ps) x

theorem separatorBelow (p sep : Value) : Parser.Below (separator a p sep) (separator b p sep) := by
  cases sep with
  | parser m g => exact readByBelow applies _ _
  | _ => exact (readByBelow applies _ _).bind fun _ => .refl _

end

theorem giveBelow {p q : Parser Value Store Value} (parsers : Parser.Below p q) (x : Value) :
    Below (give p x) (give q x) := (parsers x).bind fun _ => .refl _

theorem elementDigitsBelow {m n : Nat} (le : m ≤ n) (least : Nat) :
    Parser.Below (elementDigits m least : Parser Value Store Text) (elementDigits n least) :=
  ((Parser.Below.refl _).repeated le least).map _

theorem readingBelow {α : Type} (onTexts : Parser Text Store α) (value : α → Value)
    {p q : Parser Value Store Value} (others : Parser.Below p q) :
    Parser.Below (reading onTexts value p) (reading onTexts value q) := by
  intro x
  cases x with
  | str text => exact .refl _
  | _ => exact others _

theorem leafBelow {m n : Nat} (le : m ≤ n) (l : Leaf) :
    Parser.Below (l.parser m : Parser Value Store Value) (l.parser n) := by
  cases l with
  | num =>
    have digits := elementDigitsBelow le
    refine readingBelow _ _ (Parser.Below.map (Parser.Below.bind ?_ fun _ => .refl _) _)
    exact (digits 0).numeralOf (digits 1)
  | _ => exact .refl _

theorem applyWithBelow {a b : Applier} (applies : ApplierBelow a b) {c d : Caller}
    (calls : CallerBelow c d) {m n : Nat} (le : m ≤ n) (g : Grammar) (x : Value) :
    Below (g.applyWith a c m x) (g.applyWith b d n x) := by
  have evals : EvalBelow (evalWith c) (evalWith d) := fun env e => evalBelow calls env e
  have reads := fun p => readByBelow applies (Value.outcome "value") p
  have rests := fun p => readByBelow applies (Value.outcome "remaining") p
  have parts := fun p => readByBelow applies Value.outcomeByParts p
  cases g with
  | leaf l => exact giveBelow (leafBelow le l) x
  | sat test =>
    exact giveBelow ((Parser.Below.refl _).filterM fun v =>
      (calls test [v] []).bind fun _ => .refl _) x
  | bind p f =>
    exact (reads p x).bind fun
      | .failure => .refl _
      | .success v rest => (calls f [v] []).bind fun q => applies q rest
  | map p f => exact giveBelow ((reads p).mapM fun v => calls f [v] []) x
  | choice ps => exact firstOfBelow applies ps x
  | option default p => exact (applies p x).bind fun _ => .refl _
  | pair p q => exact giveBelow (((rests p).pair (reads q)).map _) x
  | keepRight p q =>
    exact (reads p x).bind fun
      | .failure => .refl _
      | .success _ rest => applies q rest
  | keepLeft p q => exact giveBelow ((reads p).keepLeft (readWithBelow applies "map" q)) x
  | repeated least collect p =>
    exact giveBelow (((reads p).repeated le least).mapM fun _ => .refl _) x
  | sequenceText ps =>
    exact giveBelow ((Parser.Below.sequence reads ps).mapM fun _ => .refl _) x
  | count k p => exact giveBelow (((reads p).count k).map _) x
  | between opening closing p =>
    exact giveBelow ((reads opening).between (readWithBelow applies "bind" closing)
      (readWithBelow applies "bind" p)) x
  | optional p => exact giveBelow ((reads p).optional.map _) x
  | sepBy p sep =>
    exact giveBelow (((reads p).sepByWithin (separatorBelow applies p sep) le).map _) x
  | sepBy1 p sep =>
    exact giveBelow (((reads p).sepBy1Within (separatorBelow applies p sep) le).map _) x
  | chainl1 p op =>
    exact giveBelow ((parts p).bind fun first =>
      Parser.Below.chainAfter (reads p) (rests op) (fun f v w => calls f [v, w] []) le first) x
  | shared id => exact (forceBelow evals id).bind fun p => applies p x
  | block env body => exact giveBelow (driveBelow evals parts le env _) x
  | _ => exact .refl _

theorem callWithBelow {c d : Caller} (calls : CallerBelow c d) {m n : Nat} (le : m ≤ n) :
    CallerBelow (callWith c m) (callWith d n) := by
  intro f args named
  cases f with
  | lambda serial params body env =>
    simp only [callWith]
    cases Env.bindAll env named params args with
    | ok env => exact evalBelow calls env body
    | error x => exact .refl _
  | parser mark g =>
    exact (Below.refl _).bind fun x => applyWithBelow (fun p x => calls p [x] []) calls le g x
  | _ => exact .refl _

theorem callBelow {m n : Nat} (le : m ≤ n) : CallerBelow (call m) (call n) := by
  induction m generalizing n with
  | zero => exact fun _ _ _ => .exhausted _
  | succ m ih =>
    cases n with
    | zero => omega
    | succ n =>
      have le : m ≤ n := by omega
      exact callWithBelow (ih le) le

theorem applyBelow {m n : Nat} (le : m ≤ n) : ApplierBelow (apply m) (apply n) :=
  fun p x => callBelow le p [x] []

end ParseKit.Script
