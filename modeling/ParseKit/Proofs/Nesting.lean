import ParseKit.Proofs.Words

/-! A shared parser of nested parentheses that counts how deep they go. At each level an opening
parenthesis is taken, the same parser is applied, and a closing one is to follow; where it does not
follow the level is given up, and with it all levels around it. Main statement: this ends on every
text and never fails, and what it counts is all opening parentheses in front, or none. -/
namespace ParseKit.Script

def opens (text : Text) : Nat := (text.takeWhile (· == '(')).length

def nest (depth : Nat) : Text := List.replicate depth '(' ++ List.replicate depth ')'

/-- How deep a text begins to nest, and what is left of it. If not all parentheses that are opened
in front are closed behind them, nothing is read. -/
def nestedIn (text : Text) : Nat × Text :=
  if (nest (opens text)).isPrefixOf text then (opens text, text.drop (2 * opens text))
  else (0, text)

example : nestedIn ['(', '(', ')', ')', ')'] = (2, [')']) := by decide
example : nestedIn ['(', '(', ')', 'x'] = (0, ['(', '(', ')', 'x']) := by decide

def closing (text : Text) : Nat × Text → Nat × Text
  | (depth, ')' :: rest) => (depth + 1, rest)
  | _ => (0, text)

theorem nestLength (depth : Nat) : (nest depth).length = 2 * depth := by
  simp [nest]
  omega

theorem opensMore (text : Text) : opens ('(' :: text) = opens text + 1 := by simp [opens]

theorem opensNone {a : Char} (other : a ≠ '(') (text : Text) : opens (a :: text) = 0 := by
  simp [opens, other]

theorem nestMore (depth : Nat) (rest : Text) :
    nest (depth + 1) ++ rest = '(' :: (nest depth ++ ')' :: rest) := by
  have last : List.replicate (depth + 1) ')' = List.replicate depth ')' ++ [')'] :=
    List.replicate_succ'
  rw [nest, nest, last, List.replicate_succ]
  simp

theorem nestedBegins {text rest : Text} (same : nest (opens text) ++ rest = text) :
    nestedIn text = (opens text, rest) := by
  have begins : nest (opens text) <+: text := ⟨rest, same⟩
  have left := congrArg (List.drop (nest (opens text)).length) same
  rw [List.drop_left, nestLength] at left
  rw [nestedIn, if_pos (by simpa using begins), ← left]

theorem nestedNowhere {text : Text} (other : ¬ nest (opens text) <+: text) :
    nestedIn text = (0, text) := by
  unfold nestedIn
  rw [if_neg (by simpa using other)]

theorem nestedElsewhere {a : Char} (other : a ≠ '(') (text : Text) :
    nestedIn (a :: text) = (0, a :: text) := by
  simp [nestedIn, opensNone other, nest]

theorem closingElse {text left : Text} (other : ∀ rest, left ≠ ')' :: rest) (depth : Nat) :
    closing text (depth, left) = (0, text) := by
  unfold closing
  split
  · next same =>
    cases same
    exact absurd rfl (other _)
  · rfl

theorem nestedDeeper (text : Text) :
    nestedIn ('(' :: text) = closing ('(' :: text) (nestedIn text) := by
  by_cases closed : ∃ rest, nest (opens text) ++ ')' :: rest = text
  · obtain ⟨rest, same⟩ := closed
    have outer : nest (opens ('(' :: text)) ++ rest = '(' :: text := by
      rw [opensMore, nestMore, same]
    rw [nestedBegins same, nestedBegins outer, opensMore]
    rfl
  · have outer : ¬ nest (opens ('(' :: text)) <+: '(' :: text := by
      rintro ⟨rest, same⟩
      rw [opensMore, nestMore] at same
      exact closed ⟨rest, List.tail_eq_of_cons_eq same⟩
    rw [nestedNowhere outer]
    by_cases begins : nest (opens text) <+: text
    · obtain ⟨left, same⟩ := begins
      rw [nestedBegins same, closingElse]
      rintro rest rfl
      exact closed ⟨rest, same⟩
    · rw [nestedNowhere begins, closingElse]
      rintro rest rfl
      exact begins ⟨_, by rw [opensNone (by decide)]; rfl⟩

namespace Calling
variable {c : Calling}

theorem sharedFilled {id : Name} {cell : Cell} {b x : Value} {w w' : Store} {exit : Exit Value}
    (found : w.cell? id = some cell) (built : cell.built = some b)
    (ends : (c.called b x).Ends w exit w') (mark : Mark) :
    (c.called (.parser mark (.shared id)) x).Ends w exit w' := by
  obtain ⟨ended, limit, run⟩ := ends
  obtain ⟨name, tag, body, env, _⟩ := cell
  subst built
  refine ⟨ended, limit + 1, (congrFun (c.applies limit mark (.shared id) x) w).trans ?_⟩
  have forced : force (evalWith (c.call limit)) id w = (.done b, w) := by
    have cell : Run.cell? id w = (.done (some ⟨name, tag, body, env, some b⟩), w) :=
      congrArg (fun o => (Exit.done o, w)) found
    exact (Eff.bindOfDone cell).trans rfl
  exact (Eff.bindOfDone forced).trans run

section
variable {a b p h x mid rest : Value} {v y u : Value} {w w₁ w₂ : Store}

theorem Applied.keepRight {o : Outcome Value Value} (first : c.Applied a x w (.success v mid) w₁)
    (second : c.Applied b mid w₁ o w₂) (mark : Mark) :
    c.Applied (.parser mark (.keepRight a b)) x w o w₂ :=
  (c.keepRightAgrees mark a b x _ _ _).mpr (Running.endsThen first.taken second)

theorem Applied.keepRightFails (fails : c.Applied a x w .failure w₁) (b : Value) (mark : Mark) :
    c.Applied (.parser mark (.keepRight a b)) x w .failure w₁ :=
  (c.keepRightAgrees mark a b x _ _ _).mpr (Running.endsThen fails.taken Running.endsRet)

theorem Applied.map (first : c.Applied p x w (.success v rest) w₁)
    (maps : Agree (c.called h v) (.ret u)) (mark : Mark) :
    c.Applied (.parser mark (.map p h)) x w (.success u rest) w₁ :=
  (c.mapAgrees mark p h x _ _ _).mpr (Running.endsThen first.taken
    ((mappedSilent maps rest _ _ _).mpr Running.endsRet))

theorem Applied.mapFails (fails : c.Applied p x w .failure w₁) (h : Value) (mark : Mark) :
    c.Applied (.parser mark (.map p h)) x w .failure w₁ :=
  (c.mapAgrees mark p h x _ _ _).mpr (Running.endsThen fails.taken Running.endsRet)

theorem Applied.keepLeft {i : Mark} {g : Grammar} (first : c.Applied a x w (.success v mid) w₁)
    (second : c.Applied (.parser i g) mid w₁ (.success y rest) w₂) (mark : Mark) :
    c.Applied (.parser mark (.keepLeft a (.parser i g))) x w (.success v rest) w₂ :=
  (c.keepLeftAgrees mark i a g x _ _ _).mpr (Running.endsThen (Running.endsThen first.taken
    (Running.endsThen second.taken Running.endsRet)) Running.endsRet)

theorem Applied.keepLeftFails {i : Mark} {g : Grammar} (first : c.Applied a x w (.success v mid) w₁)
    (fails : c.Applied (.parser i g) mid w₁ .failure w₂) (mark : Mark) :
    c.Applied (.parser mark (.keepLeft a (.parser i g))) x w .failure w₂ :=
  (c.keepLeftAgrees mark i a g x _ _ _).mpr (Running.endsThen (Running.endsThen first.taken
    (Running.endsThen fails.taken Running.endsRet)) Running.endsRet)

theorem Applied.keepLeftStops {i : Mark} (fails : c.Applied a x w .failure w₁) (g : Grammar)
    (mark : Mark) : c.Applied (.parser mark (.keepLeft a (.parser i g))) x w .failure w₁ :=
  (c.keepLeftAgrees mark i a g x _ _ _).mpr
    (Running.endsThen (Running.endsThen fails.taken Running.endsRet) Running.endsRet)

theorem Applied.first (succeeds : c.Applied a x w (.success v rest) w₁) (b : Value) (mark : Mark) :
    c.Applied (.parser mark (.choice [a, b])) x w (.success v rest) w₁ :=
  (c.choiceAgrees mark a b x _ _ _).mpr (Running.endsThen succeeds Running.endsRet)

theorem Applied.second {o : Outcome Value Value} (fails : c.Applied a x w .failure w₁)
    (then_ : c.Applied b x w₁ o w₂) (mark : Mark) :
    c.Applied (.parser mark (.choice [a, b])) x w o w₂ :=
  (c.choiceAgrees mark a b x _ _ _).mpr (Running.endsThen fails then_)

end
end Calling

def level (marks : Nat → Mark) (inner deeper : Value) : Value :=
  .parser (marks 7) (.choice [
    .parser (marks 5) (.map
      (.parser (marks 3) (.keepLeft
        (.parser (marks 1) (.keepRight (letterParser (marks 0, '(')) inner))
        (letterParser (marks 2, ')'))))
      deeper),
    .parser (marks 6) (.ret (.int 0))])

def counted (found : Nat × Text) : Outcome Value Value := .success (.int found.1) (.str found.2)

section
variable {c : Calling} {inner deeper : Value} {w : Store}

theorem letterTaken (c : Calling) (letter : Mark × Char) (rest : Text) (w : Store) :
    c.Applied (letterParser letter) (.str (letter.2 :: rest)) w
      (.success (.str [letter.2]) (.str rest)) w :=
  ((letterSpells c letter).succeeds rest _ _ _).mpr Running.endsRet

theorem letterMissing (c : Calling) (letter : Mark × Char) {text : Text}
    (other : ∀ rest, text ≠ letter.2 :: rest) (w : Store) :
    c.Applied (letterParser letter) (.str text) w .failure w := by
  refine ((letterSpells c letter).fails text ?_ _ _ _).mpr Running.endsRet
  rintro ⟨rest, rfl⟩
  exact other rest rfl

theorem zeroApplied (c : Calling) (mark : Mark) (text : Text) (w : Store) :
    c.Applied (.parser mark (.ret (.int 0))) (.str text) w (counted (0, text)) w :=
  (c.retAgrees mark (.int 0) (.str text) _ _ _).mpr Running.endsRet

theorem levelCounts
    (adds : ∀ depth : Nat, Agree (c.called deeper (.int depth)) (.ret (.int ↑(depth + 1))))
    {text : Text} (inside : ∀ rest, text = '(' :: rest →
      c.Applied inner (.str rest) w (counted (nestedIn rest)) w) (marks : Nat → Mark) :
    c.Applied (level marks inner deeper) (.str text) w (counted (nestedIn text)) w := by
  have nothing := zeroApplied c (marks 6) text w
  by_cases opened : ∃ rest, text = '(' :: rest
  · obtain ⟨rest, rfl⟩ := opened
    have applied := inside rest rfl
    rw [nestedDeeper]
    generalize nestedIn rest = found at applied ⊢
    obtain ⟨depth, left⟩ := found
    have within := (letterTaken c (marks 0, '(') rest w).keepRight applied (marks 1)
    by_cases closed : ∃ more, left = ')' :: more
    · obtain ⟨more, rfl⟩ := closed
      have around := within.keepLeft (letterTaken c (marks 2, ')') more w) (marks 3)
      exact (around.map (adds depth) (marks 5)).first _ (marks 7)
    · have other : ∀ more, left ≠ ')' :: more := by simpa using closed
      have around := within.keepLeftFails (letterMissing c (marks 2, ')') other w) (marks 3)
      rw [closingElse other]
      exact (around.mapFails deeper (marks 5)).second nothing (marks 7)
  · have other : ∀ rest, text ≠ '(' :: rest := by simpa using opened
    have missing := letterMissing c (marks 0, '(') other w
    have none : nestedIn text = (0, text) := by
      cases text with
      | nil => rfl
      | cons a text => exact nestedElsewhere (fun same => other text (same ▸ rfl)) text
    rw [none]
    refine Calling.Applied.second (.mapFails ?_ deeper (marks 5)) nothing (marks 7)
    exact (missing.keepRightFails inner (marks 1)).keepLeftStops _ (marks 3)

/-- Where a level has been built for a shared parser that stands inside it, the shared parser counts
how deep its text begins to nest, and nothing else changes. -/
theorem sharedCounts {id : Name} {cell : Cell} {mark : Mark} {marks : Nat → Mark}
    (found : w.cell? id = some cell)
    (built : cell.built = some (level marks (.parser mark (.shared id)) deeper))
    (adds : ∀ depth : Nat, Agree (c.called deeper (.int depth)) (.ret (.int ↑(depth + 1))))
    (text : Text) :
    c.Applied (.parser mark (.shared id)) (.str text) w (counted (nestedIn text)) w := by
  induction text with
  | nil =>
    refine Calling.sharedFilled found built (levelCounts adds ?_ marks) mark
    exact fun _ same => absurd same (by simp)
  | cons a text ih =>
    refine Calling.sharedFilled found built (levelCounts adds ?_ marks) mark
    rintro _ ⟨⟩
    exact ih

end

def nestingBody : Expr :=
  .binary .alt
    (.binary .map
      (.binary .keepLeft
        (.binary .keepRight (.unary .char (.lit (.str ['(']))) (.var "nested"))
        (.unary .char (.lit (.str [')']))))
      (.lambda ["d"] (.call (.builtin .add) [.var "d", .lit (.int 1)] [])))
    (.unary .ret (.lit (.int 0)))

def nestedProgram : Program := ⟨[("nested", nestingBody)], []⟩

def nestedParser : Value := .parser (.made (.outer .preparing 0 1)) (.shared 0)

def nestingBound : Env := [("nested", nestedParser)]

def oneDeeper : Value :=
  .lambda (.inner 0 .stepping 4 0) ["d"] (.call (.builtin .add) [.var "d", .lit (.int 1)] [])
    nestingBound

def nestingLevel : Value :=
  level (fun serial => .made (.inner 0 .stepping serial 0)) nestedParser oneDeeper

def emptyCell : Cell := ⟨0, none, nestingBody, nestingBound, none⟩

def filledCell : Cell := ⟨0, none, nestingBody, nestingBound, some nestingLevel⟩

def nestingStore (cells : Array Cell) : Store := ⟨cells, #[], .outer .stepping 0 0⟩

theorem nestingPrepares (limit : Nat) : nestedProgram.prepare limit .empty =
    (.done nestingBound, ⟨#[emptyCell], #[], .outer .preparing 1 1⟩) := rfl

theorem nestingBuilt (call : Caller) : force (evalWith call) 0 (nestingStore #[emptyCell]) =
    (.done nestingLevel, nestingStore #[emptyCell, filledCell]) := rfl

theorem addsOne (depth : Nat) :
    Agree (Calling.script.called oneDeeper (.int depth)) (.ret (.int ↑(depth + 1))) :=
  .silent 2 fun _ => rfl

def Ready (cells : Array Cell) : Prop := cells = #[emptyCell] ∨ cells = #[emptyCell, filledCell]

theorem nestingApplied {cells : Array Cell} (ready : Ready cells) (text : Text) :
    (Calling.script.called nestedParser (.str text)).Ends (nestingStore cells)
      (.done (.ofOutcome (counted (nestedIn text)))) (nestingStore #[emptyCell, filledCell]) := by
  have found : (nestingStore #[emptyCell, filledCell]).cell? 0 = some filledCell := rfl
  have filled := sharedCounts found rfl addsOne text
  rcases ready with rfl | rfl
  · obtain ⟨ended, limit, run⟩ :=
      levelCounts addsOne (fun rest _ => sharedCounts found rfl addsOne rest) _
    refine ⟨ended, limit + 1, ?_⟩
    exact (Eff.bindOfDone (f := fun p => call limit p [.str text] [])
      (nestingBuilt (call limit))).trans run
  · exact filled

def nestingStep (text : Text) : Step := ⟨.var "nested", some text, none⟩

def nestingAnswer (text : Text) : Answer StepResult :=
  ⟨.done (.front (.success (.int (nestedIn text).1) (.str (nestedIn text).2))), []⟩

theorem nestingSteps {cells : Array Cell} (ready : Ready cells) (text : Text) :
    ∃ enough, ∀ limit, enough ≤ limit →
      (nestingStep text).run (call limit) nestingBound text (nestingStore cells) =
        (.done (.front (.ofOutcome (counted (nestedIn text)))),
          nestingStore #[emptyCell, filledCell]) := by
  obtain ⟨_, enough, run⟩ := nestingApplied ready text
  refine ⟨enough, fun limit le => ?_⟩
  have more := (Calling.script.called nestedParser (.str text)).grows.later le run nofun
  exact Eff.bindOfDone (f := fun v => checked v >>= fun v => pure (StepResult.front v)) more

theorem nestingSession (texts : List Text) : ∃ enough, ∀ limit, enough ≤ limit →
    ∀ store, Ready store.cells → ∀ left,
      sessionFrom (call limit) nestingBound store left (texts.map nestingStep) =
        texts.map nestingAnswer := by
  induction texts with
  | nil => exact ⟨0, fun _ _ _ _ _ => rfl⟩
  | cons text texts ih =>
    obtain ⟨first, firstRun⟩ := nestingSteps (.inl rfl) text
    obtain ⟨later, laterRun⟩ := nestingSteps (.inr rfl) text
    obtain ⟨others, othersRun⟩ := ih
    refine ⟨max (max first later) others, fun limit le store ready left => ?_⟩
    have run : (nestingStep text).run (call limit) nestingBound text (nestingStore store.cells) =
        (.done (.front (.ofOutcome (counted (nestedIn text)))),
          nestingStore #[emptyCell, filledCell]) := by
      rcases ready with ready | ready <;> rw [ready]
      · exact firstRun limit (by omega)
      · exact laterRun limit (by omega)
    have answered : Run.answerFrom ((nestingStep text).run (call limit) nestingBound text)
        store.atStep = (nestingAnswer text, nestingStore #[emptyCell, filledCell]) :=
      congrArg (fun p : Exit StepResult × Store => (Answer.mk p.1 p.2.events.toList, p.2)) run
    refine (congrArg (fun p : Answer StepResult × Store => p.1 :: sessionFrom (call limit)
      nestingBound p.2 (leftAfter left p.1.exit) (texts.map nestingStep)) answered).trans ?_
    exact congrArg _ (othersRun limit (by omega) _ (.inr rfl) _)

/-- Nested parentheses are counted exactly, on every text and however often the parser has been
applied before: it never fails, nothing is raised and nothing else happens. -/
theorem nestingIsCounted (texts : List Text) : ∃ enough, ∀ limit, enough ≤ limit →
    nestedProgram.session limit (texts.map nestingStep) = texts.map nestingAnswer := by
  obtain ⟨enough, run⟩ := nestingSession texts
  refine ⟨enough, fun limit le => ?_⟩
  simp only [Program.session, Program.sessionBy, nestingPrepares]
  exact run limit le _ (.inl rfl) []

end ParseKit.Script
