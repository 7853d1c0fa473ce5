import ParseKit.Proofs.Limit
import ParseKit.Proofs.Remainder
import ParseKit.Script.Session

/-! What parsers of scripts leave of a text. A function in the place of a parser may answer
with any rest at all, so that only runs are meant in which nothing but parsers is applied as
a parser. Main statement: what such a run leaves of a text is a suffix of it, for every way
to build parsers, blocks and shared parsers among them. -/
namespace ParseKit.Script
open ParseKit.Parser (Leaves)

def textSuffix : Remainder Value where
  holds x y := ∀ text, x = .str text → ∃ rest, y = .str rest ∧ rest <:+ text
  refl _ text same := ⟨text, same, List.suffix_refl text⟩
  trans first second text same := by
    obtain ⟨mid, rfl, front⟩ := first text same
    obtain ⟨rest, rfl, back⟩ := second mid rfl
    exact ⟨rest, rfl, back.trans front⟩

def Value.Within : (r x : Value) → Prop
  | failure, _ => True
  | success _ rest, x => textSuffix.holds x rest
  | _, _ => False

theorem Value.Within.after {x y r : Value} (second : r.Within y) (first : textSuffix.holds x y) :
    r.Within x := by
  cases r with
  | failure => trivial
  | success a rest => exact textSuffix.trans first second
  | _ => exact second

def ApplierLeaves (apply : Applier) : Prop := ∀ p x, (apply p x).Gives fun r => r.Within x

section
variable {ω α : Type}

theorem giveLeaves {p : Parser Value Store Value} (head : Leaves textSuffix p) (x : Value) :
    (give p x).Gives fun r => r.Within x :=
  (head x).bind fun
    | .failure, _ => .done trivial
    | .success _ _, inside => .done inside

theorem otherLeaves {p : Parser Value ω Value} {x : Value} (other : ∀ text, x ≠ .str text) :
    (p x).Gives fun o => o.Within textSuffix x :=
  .always fun
    | .failure => trivial
    | .success _ _ => fun text same => absurd same (other text)

theorem readingLeaves {onTexts : Parser Text ω α} (texts : Leaves .suffix onTexts)
    (value : α → Value) (onOthers : Parser Value ω Value) :
    Leaves textSuffix (reading onTexts value onOthers) := by
  intro x
  cases x with
  | str text =>
    refine (texts text).bind fun o inside => ?_
    cases o with
    | failure => exact .done trivial
    | success v rest =>
      refine .done fun same equal => ?_
      cases equal
      exact ⟨rest, rfl, inside⟩
  | _ => exact otherLeaves nofun

theorem anyWordLeaves (words : List Value) (text : Text) (more : List Value) :
    (anyWord words text more : Eff ω _).Gives fun o => o.Within textSuffix (.str text) := by
  induction more with
  | nil => exact .done trivial
  | cons v more ih =>
    cases v with
    | str w =>
      unfold anyWord
      cases text.afterWord? w with
      | none => exact ih
      | some rest =>
        refine .done fun same equal => ?_
        cases equal
        exact ⟨_, rfl, List.drop_suffix words.length text⟩
    | _ => exact .raise

theorem stringLeaves (word : Value) : Leaves textSuffix (string word : Parser Value ω Value) := by
  intro x
  cases x with
  | str text =>
    cases word with
    | str w => exact readingLeaves (.string w) .str Parser.fail (.str text)
    | tuple words => exact anyWordLeaves words text words
    | _ => exact .raise
  | _ => exact .raise

theorem leafLeaves (limit : Nat) (l : Leaf) :
    Leaves textSuffix (l.parser limit : Parser Value ω Value) := by
  cases l with
  | item => exact readingLeaves .item _ _
  | fail => exact .fail
  | eof => exact readingLeaves .eof _ _
  | num => exact readingLeaves .num _ _
  | ofClass k => exact readingLeaves (.sat _) _ _

end

section
variable {apply : Applier} (leaves : ApplierLeaves apply)
include leaves

theorem readByLeaves {view : Value → Except Fault (Outcome Value Value)}
    (failing : view .failure = .ok .failure)
    (succeeding : ∀ a rest, view (.success a rest) = .ok (.success a rest)) (p : Value) :
    Leaves textSuffix (readBy apply view p) := fun x =>
  (leaves p x).bind fun r inside => by
    cases r with
    | failure => rw [failing]; exact .done trivial
    | success a rest => rw [succeeding]; exact .done inside
    | _ => exact inside.elim

theorem readLeaves (p : Value) : Leaves textSuffix (read apply p) :=
  readByLeaves leaves rfl (fun _ _ => rfl) p

theorem readRestLeaves (p : Value) : Leaves textSuffix (readRest apply p) :=
  readByLeaves leaves rfl (fun _ _ => rfl) p

theorem readPartsLeaves (p : Value) : Leaves textSuffix (readParts apply p) :=
  readByLeaves leaves rfl (fun _ _ => rfl) p

theorem readWithLeaves (operation : String) (p : Value) :
    Leaves textSuffix (readWith apply operation p) := by
  cases p with
  | parser mark g => exact readLeaves leaves (.parser mark g)
  | _ => exact fun _ => .raise

theorem separatorLeaves (p sep : Value) : Leaves textSuffix (separator apply p sep) := by
  cases sep with
  | parser mark g => exact readLeaves leaves (.parser mark g)
  | _ => exact (readLeaves leaves p).bind fun _ _ => .raise

theorem firstOfLeaves (ps : List Value) (x : Value) :
    (firstOf apply ps x).Gives fun r => r.Within x := by
  match ps with
  | [] => exact .done trivial
  | [p] => exact leaves p x
  | p :: q :: ps =>
    refine (leaves p x).bind fun r inside => ?_
    split
    · exact .done inside
    · exact firstOfLeaves (q :: ps) x

end

section
variable {σ : Type} {R : Remainder σ} {eval : Env → Expr → Run Value}
  {apply : Value → Parser σ Store Value}

theorem leaveThenGives {α : Type} {position : Position} {next : Run α} {post : α → Prop}
    (given : next.Gives post) : (leaveThen eval position next).Gives post :=
  .after fun
    | some _ => .raise
    | none => given

theorem resumeLeaves (leaves : ∀ v, Leaves R (apply v))
    {again : Env → List Frame → Parser σ Store Value}
    (rounds : ∀ env stack, Leaves R (again env stack)) (x : σ) (p : Pause) :
    (resume eval apply again x p).Gives fun o => o.Within R x := by
  cases p with
  | returned v => exact .done (R.refl x)
  | yielded v into position =>
    simp only [resume]
    cases v.isCallable with
    | true =>
      refine (leaves v x).bind fun o first => ?_
      cases o with
      | failure => exact leavingGives (leaveThenGives (.done trivial))
      | success a rest => exact (rounds _ _ rest).weaken fun _ second => second.after first
    | false => exact leavingGives (leaveThenGives .raise)

theorem driveLeaves (leaves : ∀ v, Leaves R (apply v)) (limit : Nat) (env : Env)
    (stack : List Frame) : Leaves R (drive eval apply limit env stack) := by
  induction limit generalizing env stack with
  | zero => exact fun _ => .exhausted
  | succ limit ih => exact fun x => .after fun p => resumeLeaves leaves ih x p

end

theorem applyWithLeaves {apply : Applier} (leaves : ApplierLeaves apply) (call : Caller)
    (limit : Nat) (g : Grammar) (x : Value) :
    (g.applyWith apply call limit x).Gives fun r => r.Within x := by
  have reads := readLeaves leaves
  have withs := readWithLeaves leaves
  cases g with
  | leaf l => exact giveLeaves (leafLeaves limit l) x
  | ret v => exact giveLeaves (.ret v) x
  | char c => exact giveLeaves (readingLeaves (.sat _) _ _) x
  | string word => exact giveLeaves (stringLeaves word) x
  | oneOf members => exact giveLeaves (readingLeaves (.sat _) _ _) x
  | noneOf members => exact giveLeaves (readingLeaves (.sat _) _ _) x
  | sat test => exact giveLeaves ((readingLeaves .item _ _).filterM _) x
  | trace label => exact giveLeaves (readingLeaves (.trace label) _ _) x
  | bind p f =>
    exact (reads p x).bind fun
      | .failure, _ => .done trivial
      | .success _ rest, first => .after fun q =>
        (leaves q rest).weaken fun _ second => second.after first
  | map p f => exact giveLeaves ((reads p).mapM _) x
  | choice ps => exact firstOfLeaves leaves ps x
  | option default p =>
    refine (leaves p x).bind fun r inside => ?_
    split
    · exact .done inside
    · exact .done (textSuffix.refl x)
  | pair a b => exact giveLeaves (((readRestLeaves leaves a).pair (reads b)).map _) x
  | keepRight a b =>
    exact (reads a x).bind fun
      | .failure, _ => .done trivial
      | .success _ rest, first =>
        (leaves b rest).weaken fun _ second => second.after first
  | keepLeft a b => exact giveLeaves ((reads a).keepLeft (withs "map" b)) x
  | repeated least collect p => exact giveLeaves (((reads p).repeated limit least).mapM _) x
  | sequenceText ps =>
    refine giveLeaves ((Leaves.sequence fun p member => ?_).mapM _) x
    obtain ⟨v, -, rfl⟩ := List.mem_map.mp member
    exact reads v
  | count n p => exact giveLeaves (((reads p).count n).map _) x
  | between opening closing p =>
    exact giveLeaves ((reads opening).between (withs "bind" closing) (withs "bind" p)) x
  | optional p => exact giveLeaves ((reads p).optional.map _) x
  | sepBy p sep =>
    exact giveLeaves (((reads p).sepByWithin (separatorLeaves leaves p sep) limit).map _) x
  | sepBy1 p sep =>
    exact giveLeaves (((reads p).sepBy1Within (separatorLeaves leaves p sep) limit).map _) x
  | chainl1 p op =>
    exact giveLeaves ((readPartsLeaves leaves p).bind fun first =>
      (reads p).chainAfter ((readRestLeaves leaves op).map _) limit first) x
  | shared id => exact .after fun p => leaves p x
  | block env body => exact giveLeaves (driveLeaves (readPartsLeaves leaves) limit env _) x
  | raising fault => exact .raise

/- Applies parsers as ever, but is cut short where a function is to be applied in the place of
a parser. -/
def applyParser : (limit : Nat) → Applier
  | 0, _, _ => Eff.exhausted
  | limit + 1, .parser _ g, x => g.applyWith (applyParser limit) (call limit) limit x
  | _ + 1, v, _ => if v.isCallable then Eff.exhausted else Eff.raise (.notCallable v.kind)

theorem applyParserLeaves (limit : Nat) : ApplierLeaves (applyParser limit) := by
  induction limit with
  | zero => exact fun _ _ => .exhausted
  | succ limit ih =>
    intro p x
    cases p with
    | parser mark g => exact applyWithLeaves ih (call limit) limit g x
    | builtin b => exact .exhausted
    | lambda serial params body env => exact .exhausted
    | blockFn serial params body env => exact .exhausted
    | _ => exact .raise

theorem applyParserBelow (limit : Nat) : ApplierBelow (applyParser limit) (apply limit) := by
  induction limit with
  | zero => exact fun _ _ => .exhausted _
  | succ limit ih =>
    intro p x
    cases p with
    | parser mark g =>
      exact applyWithBelow ih (callBelow (Nat.le_refl limit)) (Nat.le_refl limit) g x
    | builtin b => exact .exhausted _
    | lambda serial params body env => exact .exhausted _
    | blockFn serial params body env => exact .exhausted _
    | _ => exact .refl _

/-- Wherever the run applies a value as a parser, it is one. -/
def OnlyParsers (limit : Nat) (p x : Value) (w : Store) : Prop :=
  applyParser limit p x w = apply limit p x w

theorem remainderIsSuffix {limit : Nat} {p : Value} {text : Text} {w : Store}
    (only : OnlyParsers limit p (.str text) w) :
    (∀ a rest w', apply limit p (.str text) w = (.done (.success a rest), w') →
      ∃ front remaining, rest = .str remaining ∧ text = front ++ remaining) ∧
    ∀ source input rest word w',
      whole limit p source (.str text) w = (.done (.error (.leftover input rest word)), w') →
        input = .str text ∧
          ∃ front remaining, rest = .str remaining ∧ remaining ≠ [] ∧ text = front ++ remaining := by
  constructor
  · intro a rest w' run
    obtain ⟨remaining, rfl, front, same⟩ :=
      applyParserLeaves limit p (.str text) w _ w' (only.trans run) text rfl
    exact ⟨front, remaining, rfl, same.symm⟩
  · intro source input rest word w' run
    have same : whole limit p source (.str text) w =
        Parser.wholeInput (readRest (applyParser limit) p) source (.str text) w :=
      Eff.bindHead (Eff.bindHead only.symm _) _
    obtain ⟨rfl, inside, more⟩ := (readRestLeaves (applyParserLeaves limit) p).wholeInput source
      (.str text) w _ w' (same.symm.trans run) input rest word rfl
    obtain ⟨remaining, rfl, front, joined⟩ := inside text rfl
    refine ⟨rfl, front, remaining, rfl, ?_, joined.symm⟩
    intro empty
    cases empty
    cases more

def letters : Value := .parser (.made 0) (.shared 0)

def lettersStore : Store where
  cells := #[{
    name := 0
    tag := none
    body := .binary .alt (.binary .keepRight (.unary .char (.lit (.str ['a']))) (.var "p"))
      (.unary .ret (.lit .none))
    env := [("p", letters)]
    built := none }]
  events := #[]
  name := 1

def lettersThenOne : Value :=
  .parser (.made 0) (.block [("p", letters)]
    [.yield (.var "p") none, .yield (.atom .item) (some "c"), .ret (.var "c")])

theorem lettersLeaveSuffix :
    (apply 12 lettersThenOne (.str ['a', 'a', 'b', 'c']) lettersStore).1 =
        .done (.success (.str ['b']) (.str ['c'])) ∧
      ∃ front remaining, Value.str ['c'] = .str remaining ∧
        ['a', 'a', 'b', 'c'] = front ++ remaining := by
  have only : OnlyParsers 12 lettersThenOne (.str ['a', 'a', 'b', 'c']) lettersStore := rfl
  exact ⟨rfl, (remainderIsSuffix only).1 (.str ['b']) (.str ['c']) _ rfl⟩

end ParseKit.Script
