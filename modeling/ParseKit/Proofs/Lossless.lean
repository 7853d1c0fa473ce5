import ParseKit.Proofs.Block.Yield
import ParseKit.Proofs.Recursion
import ParseKit.Proofs.Suffix
import ParseKit.Script.DescriptorPart

/-! Parsers whose values are the texts they have read: those of a single character or a word, and
what is put together from these by alternatives, joined repetitions and joined sequences, by shared
parsers, and by the block that reads an identifier. Main statement: the value of such a parser and
what it leaves are, one behind the other, the text it was applied to. -/
namespace ParseKit.Script

def Splits (text : Text) (v rest : Value) : Prop :=
  ∃ front left, v = .str front ∧ rest = .str left ∧ front ++ left = text

theorem Splits.front {text : Text} {front left : Text} (same : front ++ left = text) :
    Splits text (.str front) (.str left) := ⟨front, left, rfl, rfl, same⟩

def Pieces (text : Text) (vs : List Value) (rest : Value) : Prop :=
  ∃ (fronts : List Text) (left : Text),
    vs = fronts.map .str ∧ rest = .str left ∧ fronts.flatten ++ left = text

namespace Pieces
variable {text : Text} {vs : List Value} {v mid rest : Value}

theorem start (text : Text) : Pieces text [].reverse (.str text) := ⟨[], text, rfl, rfl, rfl⟩

theorem next {mid : Text} (pieces : Pieces text vs (.str mid)) (last : Splits mid v rest) :
    Pieces text (vs ++ [v]) rest := by
  obtain ⟨fronts, _, rfl, same, rfl⟩ := pieces
  cases same
  obtain ⟨front, left, rfl, rfl, rfl⟩ := last
  exact ⟨fronts ++ [front], left, by simp, rfl, by simp⟩

theorem texts (pieces : Pieces text vs rest) : ∀ v ∈ vs, v.IsText := by
  obtain ⟨fronts, left, rfl, -, -⟩ := pieces
  intro v member
  obtain ⟨front, -, rfl⟩ := List.mem_map.mp member
  exact ⟨front, rfl⟩

theorem joined (pieces : Pieces text vs rest) :
    (joinTexts vs : Run Value).Gives fun v => Splits text v rest := by
  unfold joinTexts
  rw [allTextsPlain 0 pieces.texts]
  obtain ⟨fronts, left, rfl, rfl, rfl⟩ := pieces
  have plain : (fronts.map Value.str).map Value.plain = fronts := by
    rw [List.map_map]
    exact List.map_id fronts
  rw [plain]
  exact .done (.front rfl)

end Pieces

def Taken {α : Type} (split : α → Value → Prop) : Outcome Value α → Prop
  | .failure => True
  | .success v rest => split v rest

def Keeps (p : Parser Value Store Value) : Prop :=
  ∀ text, (p (.str text)).Gives (Taken (Splits text))

namespace Keeps

theorem fail : Keeps Parser.fail := fun _ => .done trivial

theorem string (word : Text) : Keeps (Script.string (.str word)) := by
  intro text
  change (reading (Parser.string word) Value.str Parser.fail (.str text)).Gives (Taken (Splits text))
  simp only [reading, Parser.string]
  cases found : text.afterWord? word with
  | none => exact .done trivial
  | some rest => exact .done (.front (Text.afterWordIff.mp found).symm)

theorem sat (test : Char → Bool) (onOthers : Parser Value Store Value) :
    Keeps (reading (Parser.sat test) Value.ofChar onOthers) := by
  intro text
  cases text with
  | nil => exact .done trivial
  | cons c rest =>
    have same : Parser.sat test (c :: rest) =
        (if test c then pure (.success c rest) else pure .failure : Run (Outcome Text Char)) := rfl
    simp only [reading, same]
    split
    · exact .done (.front rfl)
    · exact .done trivial

theorem item : Keeps Script.item
  | [] => .done trivial
  | _ :: _ => .done (.front rfl)

theorem filterM {p : Parser Value Store Value} (head : Keeps p) (test : Value → Run Bool) :
    Keeps (p.filterM test) := fun text =>
  (head text).bind fun
    | .failure, _ => .done trivial
    | .success v rest, taken => .after fun kept => by
      cases kept with
      | true => exact .done taken
      | false => exact .done trivial

section
variable {text : Text} {p : Parser Value Store Value} {ps : List (Parser Value Store Value)}
  {seen : List Value} {x : Value}

theorem pieceNext (head : Keeps p) (pieces : Pieces text seen.reverse x) :
    (p x).Gives (Taken fun v rest => Pieces text (v :: seen).reverse rest) := by
  obtain ⟨_, mid, _, rfl, _⟩ := id pieces
  refine (head mid).weaken fun o taken => ?_
  cases o with
  | failure => trivial
  | success v rest => simpa only [Taken, List.reverse_cons] using pieces.next taken

theorem sequenceFrom (each : ∀ p ∈ ps, Keeps p) (pieces : Pieces text seen.reverse x) :
    (Parser.sequenceFrom seen ps x).Gives (Taken (Pieces text)) := by
  -- What was seen so far, and then the rest, make up the whole text in every round.
  induction ps generalizing seen x with
  | nil => exact .done pieces
  | cons p ps ih =>
    obtain ⟨head, others⟩ := List.forall_mem_cons.mp each
    exact (head.pieceNext pieces).bind fun
      | .failure, _ => .done trivial
      | .success _ _, next => ih others next

theorem repeatFrom (head : Keeps p) (limit : Nat) (pieces : Pieces text seen.reverse x) :
    (Parser.repeatFrom p limit seen x).Gives fun (vs, rest) => Pieces text vs rest := by
  induction limit generalizing seen x with
  | zero =>
    unfold Parser.repeatFrom
    refine (head.pieceNext pieces).bind fun o next => ?_
    cases o with
    | failure => exact .done pieces
    | success v rest => exact .exhausted
  | succ limit ih =>
    unfold Parser.repeatFrom
    refine (head.pieceNext pieces).bind fun o next => ?_
    cases o with
    | failure => exact .done pieces
    | success v rest => exact ih next

theorem joined {p : Parser Value Store (List Value)}
    (pieces : ∀ text, (p (.str text)).Gives (Taken (Pieces text))) :
    Keeps (p.mapM joinTexts) := fun text =>
  (pieces text).bind fun
    | .failure, _ => .done trivial
    | .success _ _, taken => taken.joined.bind fun _ split => .done split

theorem repeated (head : Keeps p) (limit least : Nat) :
    Keeps ((Parser.repeated limit least p).mapM joinTexts) := by
  refine joined fun text => ?_
  refine (head.repeatFrom limit (.start text)).bind fun ⟨vs, rest⟩ pieces => ?_
  dsimp only
  split
  · exact .done trivial
  · exact .done pieces

end
end Keeps

def readsIdentifier : List Stmt → Bool
  | [.yield (.atom (.ofClass .letter)) (some "first"),
      .yield (.unary .manyText (.atom (.ofClass .word))) (some "rest"),
      .ret (.call (.builtin .add) [.var "first", .var "rest"] [])] => true
  | _ => false

theorem readsIdentifierOnly {body : List Stmt} (reads : readsIdentifier body = true) :
    body = identifierBlock := by
  unfold readsIdentifier at reads
  split at reads
  · rfl
  · cases reads

mutual

/- Parsers whose values are the texts they take, as their form shows it. What a shared parser is
built from does not show. -/
def Value.textual : Value → Bool
  | .parser _ g => g.textual
  | _ => false

def Grammar.textual : Grammar → Bool
  | .leaf .item | .leaf .fail | .leaf (.ofClass _) | .char _ | .string (.str _) | .oneOf _
  | .noneOf _ | .sat _ | .ret (.str []) | .shared _ => true
  | .choice ps | .sequenceText ps => allTextual ps
  | .repeated _ .joined p | .option (.str []) p => p.textual
  | .block _ body => readsIdentifier body
  | _ => false

def allTextual : List Value → Bool
  | [] => true
  | p :: ps => p.textual && allTextual ps

end

/- Applies parsers as ever, but is cut short where one is to be applied inside that is none of
these. The operands of these parsers are such parsers too, so that it can only be a parser that a
shared one was built from. -/
def applyTextual : (limit : Nat) → Applier
  | 0, _, _ => Eff.exhausted
  | limit + 1, .parser _ g, x =>
    g.applyWith (fun p y => if p.textual then applyTextual limit p y else Eff.exhausted) (call limit)
      limit x
  | limit + 1, p, x => apply (limit + 1) p x

def SharesTextual (limit : Nat) (p x : Value) (w : Store) : Prop :=
  applyTextual limit p x w = apply limit p x w

theorem applyTextualBelow (limit : Nat) (p x : Value) :
    Eff.Below (applyTextual limit p x) (apply limit p x) := by
  induction limit generalizing p x with
  | zero => exact .exhausted _
  | succ limit ih =>
    cases p with
    | parser mark g =>
      refine applyWithBelow (fun p y => ?_) (fun _ _ _ => .refl _) (Nat.le_refl limit) g x
      split
      · exact ih p y
      · exact .exhausted _
    | _ => exact .refl _

def Value.KeptFrom (text : Text) : Value → Prop
  | failure => True
  | success v rest => Splits text v rest
  | _ => False

def ApplierKeeps (apply : Applier) : Prop :=
  ∀ p text, (apply p (.str text)).Gives (Value.KeptFrom text)

theorem giveKeeps {p : Parser Value Store Value} (head : Keeps p) (text : Text) :
    (give p (.str text)).Gives (Value.KeptFrom text) :=
  (head text).bind fun
    | .failure, _ => .done trivial
    | .success _ _, taken => .done taken

section
variable {eval : Env → Expr → Run Value} {apply : Value → Parser Value Store Value} {env : Env}
  {body : List Stmt} {stack : List Frame} {x : Value} {e : Expr}
  {post : Outcome Value Value → Prop}

theorem drivePauses {pauses : Pause → Prop}
    (step : (progress eval env stack).Gives fun r => ∃ p, r = .paused p ∧ pauses p)
    (resumed : ∀ n p, pauses p → (resume eval apply (drive eval apply n) x p).Gives post)
    (limit : Nat) : (drive eval apply limit env stack x).Gives post := by
  match limit with
  | 0 => exact .exhausted
  | 1 =>
    have never : (Eff.exhausted : Run Pause).Gives pauses := .exhausted
    exact (leavingGives never).bind (resumed 0)
  | limit + 2 =>
    have paused : (advance eval (limit + 1) env stack).Gives pauses :=
      step.bind fun r ⟨p, same, held⟩ => by
        rw [same]
        exact .done held
    exact (leavingGives paused).bind (resumed (limit + 1))

variable (bare : (Frame.statements body :: stack).all Frame.unprotected = true)
include bare

theorem driveYield {into : Option String} {yields : Value → Prop} (failing : post .failure)
    (evaluated : (eval env e).Gives yields)
    (next : ∀ v, yields v → v.isCallable = true ∧ (apply v x).Gives (Taken fun a rest => ∀ n,
      (drive eval apply n (env.receive into a) (.statements body :: stack) rest).Gives post))
    (limit : Nat) :
    (drive eval apply limit env (.statements (.yield e into :: body) :: stack) x).Gives post := by
  have step : (progress eval env (.statements (.yield e into :: body) :: stack)).Gives fun r =>
      ∃ p, r = .paused p ∧ ∃ v, yields v ∧ p = .yielded v into ⟨env, .statements body :: stack⟩ := by
    rw [progressYield bare]
    exact evaluated.bind fun v held => .done ⟨_, rfl, v, held, rfl⟩
  refine drivePauses step ?_ limit
  rintro n p ⟨v, held, rfl⟩
  obtain ⟨callable, applied⟩ := next v held
  simp only [resume, callable, if_true]
  refine applied.bind fun o goes => ?_
  cases o with
  | failure => exact leavingGives (leaveThenGives (.done failing))
  | success a rest => exact goes n

theorem driveReturn (evaluated : (eval env e).Gives fun v => post (.success v x)) (limit : Nat) :
    (drive eval apply limit env (.statements (.ret e :: body) :: stack) x).Gives post := by
  have step : (progress eval env (.statements (.ret e :: body) :: stack)).Gives fun r =>
      ∃ p, r = .paused p ∧ ∃ v, post (.success v x) ∧ p = .returned v := by
    rw [progressReturn bare]
    exact evaluated.bind fun v held => .done ⟨_, rfl, v, held, rfl⟩
  refine drivePauses step ?_ limit
  rintro n p ⟨v, held, rfl⟩
  exact .done held

end

theorem letterEvaluates (limit : Nat) (env : Env) :
    (evalWith (call limit) env (.atom (.ofClass .letter))).Gives
      (· = (Atom.ofClass .letter).value) := by
  simp only [evalWith]
  exact .done rfl

theorem wordsEvaluate (limit : Nat) (env : Env) :
    (evalWith (call limit) env (.unary .manyText (.atom (.ofClass .word)))).Gives fun v =>
      ∃ name, v = .parser (.made name) (.repeated 0 .joined (Atom.ofClass .word).value) := by
  change (Run.make (.parser (.repeated 0 .joined (Atom.ofClass .word).value))).Gives _
  exact .after fun name => .done ⟨name, rfl⟩

theorem joinedEvaluates (limit : Nat) (env : Env) (front behind : Text) :
    (evalWith (call limit) ((env.set "first" (.str front)).set "rest" (.str behind))
      (.call (.builtin .add) [.var "first", .var "rest"] [])).Gives
        (· = .str (front ++ behind)) := by
  simp only [evalWith, evalAllWith, evalNamedWith, Env.findSet]
  cases limit with
  | zero => exact .exhausted
  | succ limit => exact .done rfl

section
variable {apply : Applier} (keeps : ApplierKeeps apply)
include keeps

theorem readKeeps (p : Value) : Keeps (read apply p) := fun text =>
  (keeps p text).bind fun r taken => by
    cases r with
    | failure => exact .done trivial
    | success v rest => exact .done taken
    | _ => exact taken.elim

theorem readPartsKeeps (p : Value) : Keeps (readParts apply p) := fun text =>
  (keeps p text).bind fun r taken => by
    cases r with
    | failure => exact .done trivial
    | success v rest => exact .done taken
    | _ => exact taken.elim

theorem firstOfKeeps (ps : List Value) (text : Text) :
    (firstOf apply ps (.str text)).Gives (Value.KeptFrom text) := by
  match ps with
  | [] => exact .done trivial
  | [p] => exact keeps p text
  | p :: q :: ps =>
    refine (keeps p text).bind fun r taken => ?_
    split
    · exact .done taken
    · exact firstOfKeeps (q :: ps) text

theorem identifierKeeps (limit rounds : Nat) (env : Env) :
    Keeps (runBlock (evalWith (call limit)) (readParts apply) rounds env identifierBlock) := by
  intro text
  refine driveYield rfl trivial (letterEvaluates limit env) ?_ rounds
  rintro v rfl
  refine ⟨rfl, (readPartsKeeps keeps _ text).weaken fun o first => ?_⟩
  cases o with
  | failure => trivial
  | success v rest =>
    obtain ⟨front, mid, rfl, rfl, rfl⟩ := first
    refine driveYield rfl trivial (wordsEvaluate limit _) ?_
    rintro v ⟨name, rfl⟩
    refine ⟨rfl, (readPartsKeeps keeps _ mid).weaken fun o second => ?_⟩
    cases o with
    | failure => trivial
    | success v rest =>
      obtain ⟨behind, left, rfl, rfl, rfl⟩ := second
      refine driveReturn rfl ((joinedEvaluates limit env front behind).weaken fun v same => ?_)
      subst same
      exact ⟨front ++ behind, left, rfl, rfl, List.append_assoc ..⟩

theorem applyWithKeeps {g : Grammar} (textual : g.textual = true) (limit rounds : Nat)
    (text : Text) :
    (g.applyWith apply (call limit) rounds (.str text)).Gives (Value.KeptFrom text) := by
  cases g with
  | leaf l =>
    cases l with
    | item => exact giveKeeps .item text
    | fail => exact giveKeeps .fail text
    | ofClass k => exact giveKeeps (.sat k.holds (elementHashed (·.isIn k))) text
    | _ => cases textual
  | char c => exact giveKeeps (.sat _ (elementEqual c)) text
  | oneOf members =>
    exact giveKeeps (.sat _ (elementHashed fun v => members.any v.equal)) text
  | noneOf members =>
    exact giveKeeps (.sat _ (elementHashed fun v => !members.any v.equal)) text
  | sat test => exact giveKeeps (Keeps.item.filterM _) text
  | string word =>
    cases word with
    | str w => exact giveKeeps (.string w) text
    | _ => cases textual
  | ret v =>
    cases v with
    | str s =>
      cases s with
      | nil => exact .done (.front rfl)
      | cons c s => cases textual
    | _ => cases textual
  | choice ps => exact firstOfKeeps keeps ps text
  | sequenceText ps =>
    have each : ∀ p ∈ ps.map (read apply), Keeps p := fun p member => by
      obtain ⟨v, -, rfl⟩ := List.mem_map.mp member
      exact readKeeps keeps v
    exact giveKeeps (.joined fun text => Keeps.sequenceFrom each (.start text)) text
  | repeated least collect p =>
    cases collect with
    | joined => exact giveKeeps ((readKeeps keeps p).repeated rounds least) text
    | _ => cases textual
  | option default p =>
    cases default with
    | str s =>
      cases s with
      | cons c s => cases textual
      | nil =>
        refine (keeps p text).bind fun r taken => ?_
        split
        · exact .done taken
        · exact .done (.front rfl)
    | _ => cases textual
  | block env body =>
    cases readsIdentifierOnly textual
    exact giveKeeps (identifierKeeps keeps limit rounds env) text
  | shared id => exact .after fun p => keeps p text
  | _ => cases textual

end

theorem applyTextualKeeps (limit : Nat) {p : Value} (textual : p.textual = true) (text : Text) :
    (applyTextual limit p (.str text)).Gives (Value.KeptFrom text) := by
  induction limit generalizing p text with
  | zero => exact .exhausted
  | succ limit ih =>
    have inside : ApplierKeeps fun p y =>
        if p.textual then applyTextual limit p y else Eff.exhausted := fun p text => by
      dsimp only
      split
      · next textual => exact ih textual text
      · exact .exhausted
    cases p with
    | parser mark g => exact applyWithKeeps inside textual limit limit text
    | _ => cases textual

/-- What such a parser gives is a text, and this text with what is left behind it is the text that
was read. Nothing is lost, nothing is there twice. -/
theorem valueAndRestAreText {limit : Nat} {p : Value} {text : Text} {w w' : Store} {v rest : Value}
    (textual : p.textual = true) (shares : SharesTextual limit p (.str text) w)
    (run : apply limit p (.str text) w = (.done (.success v rest), w')) :
    ∃ front left, v = .str front ∧ rest = .str left ∧ front ++ left = text :=
  applyTextualKeeps limit textual text w _ w' (shares.trans run)

def nested : Value := .parser (.made 0) (.shared 0)

def nestedStore : Store where
  cells := #[{
    name := 0
    tag := none
    body := .unary .sequenceText (.list [.unary .char (.lit (.str ['('])), .run identifierBlock,
      .binary .option (.lit (.str [])) (.var "p"), .unary .char (.lit (.str [')']))])
    env := [("p", nested)]
    built := none }]
  events := #[]
  name := 1

def textsOf? : Exit Value → Option (Text × Text)
  | .done (.success (.str front) (.str left)) => some (front, left)
  | _ => none

theorem exitOfTexts {exit : Exit Value} {front left : Text}
    (texts : textsOf? exit = some (front, left)) :
    exit = .done (.success (.str front) (.str left)) := by
  unfold textsOf? at texts
  split at texts
  · cases texts
    rfl
  · cases texts

theorem nestedLossless :
    (apply 11 nested (.str ['(', 'a', '1', '(', 'b', ')', ')', '(']) nestedStore).1 =
        .done (.success (.str ['(', 'a', '1', '(', 'b', ')', ')']) (.str ['('])) ∧
      ∃ front left, Value.str ['(', 'a', '1', '(', 'b', ')', ')'] = .str front ∧
        Value.str ['('] = .str left ∧
        front ++ left = ['(', 'a', '1', '(', 'b', ')', ')', '('] := by
  have ended : (applyTextual 11 nested (.str ['(', 'a', '1', '(', 'b', ')', ')', '(']) nestedStore).1 =
      .done (.success (.str ['(', 'a', '1', '(', 'b', ')', ')']) (.str ['('])) :=
    exitOfTexts (by decide +kernel)
  rcases cut : applyTextual 11 nested (.str ['(', 'a', '1', '(', 'b', ')', ')', '(']) nestedStore
    with ⟨exit, after⟩
  rw [cut] at ended
  cases ended
  have run := (applyTextualBelow 11 nested (.str ['(', 'a', '1', '(', 'b', ')', ')', '('])).ends cut
    nofun
  exact ⟨congrArg Prod.fst run, valueAndRestAreText rfl (cut.trans run.symm) run⟩

end ParseKit.Script
