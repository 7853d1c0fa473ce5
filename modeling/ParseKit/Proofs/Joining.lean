import ParseKit.Proofs.Sequencing

/-! Joined texts. A parser that joins the values of others waits for all of them, so that a failure
comes before any complaint about a value, and a complaint is about the first value that is no text.
Main statement: this holds of sequences and of repetitions, and a sequence of sequences joins what
one sequence does. -/
namespace ParseKit.Script

structure FirstOther (vs : List Value) (i : Nat) (v : Value) : Prop where
  there : vs[i]? = some v
  other : ¬ v.IsText
  before : ∀ u ∈ vs.take i, u.IsText

theorem FirstOther.behind {vs : List Value} {i : Nat} {u v : Value} (first : FirstOther vs i v)
    (isText : u.IsText) : FirstOther (u :: vs) (i + 1) v :=
  ⟨first.there, first.other, List.forall_mem_cons.mpr ⟨isText, first.before⟩⟩

theorem textsOrOther (vs : List Value) : (∀ v ∈ vs, v.IsText) ∨ ∃ i v, FirstOther vs i v := by
  induction vs with
  | nil => exact .inl nofun
  | cons v vs ih =>
    by_cases isText : v.IsText
    · rcases ih with texts | ⟨i, u, first⟩
      · exact .inl (List.forall_mem_cons.mpr ⟨isText, texts⟩)
      · exact .inr ⟨i + 1, u, first.behind isText⟩
    · exact .inr ⟨0, v, rfl, isText, nofun⟩

theorem FirstOther.found {vs : List Value} {i : Nat} {v : Value} (first : FirstOther vs i v)
    (start : Nat) : allTexts start vs = .error (start + i, v.kind) := by
  obtain ⟨there, other, before⟩ := first
  induction vs generalizing i start with
  | nil => cases there
  | cons u vs ih =>
    cases i with
    | zero =>
      cases there
      rw [allTexts]
      · rfl
      · rintro text rfl
        exact other ⟨text, rfl⟩
    | succ i =>
      obtain ⟨⟨text, rfl⟩, others⟩ := List.forall_mem_cons.mp before
      rw [allTexts, ih (start + 1) there others, Nat.add_right_comm]
      rfl

def complaint (i : Nat) (v : Value) : Text :=
  "sequence item ".toList ++ Text.ofInt i ++ ": expected str instance, ".toList ++ v.kind.name ++
    " found".toList

namespace Calling
variable (c : Calling)

section
variable {vs : List Value} {i : Nat} {v : Value} {w : Store}

theorem joiningEnds (texts : ∀ v ∈ vs, v.IsText) (left : Value) :
    (joining (.success vs left)).Ends w (.done (.success (joined vs) left)) w := by
  rw [joiningTexts texts]
  exact Running.endsRet

theorem joiningRaises (first : FirstOther vs i v) (left : Value) :
    (joining (.success vs left)).Ends w (.raised (.notText i v.kind)) w := by
  refine Running.endsBind.mpr (.inr ⟨_, ⟨nofun, 0, ?_⟩, rfl⟩)
  change joinTexts vs w = _
  rw [joinTexts, first.found, Nat.zero_add]
  rfl

end

inductive InOrder : (ps : List Value) → (x : Value) → Store → (vs : List Value) → (left : Value) →
    Store → Prop where
  | stop (x : Value) (w : Store) : InOrder [] x w [] x w
  | next {p x v rest left : Value} {w u w' : Store} {ps vs : List Value}
      (first : c.Applied p x w (.success v rest) u) (others : InOrder ps rest u vs left w') :
      InOrder (p :: ps) x w (v :: vs) left w'

def FailsInOrder (ps : List Value) (x : Value) (w w' : Store) : Prop :=
  ∃ before p behind vs mid u, ps = before ++ p :: behind ∧ c.InOrder before x w vs mid u ∧
    c.Applied p mid u .failure w'

def Answering (ps : List Value) (x : Value) (w : Store) : Prop :=
  ∀ before p behind vs mid u, ps = before ++ p :: behind → c.InOrder before x w vs mid u →
    ∃ o w', c.Applied p mid u o w'

/-- A parser that joins values when they have all come. -/
structure JoinsLast (q x : Value) (w : Store) (fails : Store → Prop)
    (comes : List Value → Value → Store → Prop) : Prop where
  ends : (∃ w', fails w') ∨ ∃ vs left w', comes vs left w'
  failure : ∀ w', c.Applied q x w .failure w' ↔ fails w'
  raises : ∀ fault w', (c.called q x).Ends w (.raised fault) w' ↔ ∃ vs left i v,
    comes vs left w' ∧ FirstOther vs i v ∧ fault = .notText i v.kind ∧
      fault.message = complaint i v
  succeeds : ∀ a left w', c.Applied q x w (.success a left) w' ↔ ∃ vs,
    comes vs left w' ∧ (∀ v ∈ vs, v.IsText) ∧ a = joined vs

section
variable {c} {q x : Value} {w : Store}

theorem joinsLast {fails : Store → Prop} {comes : List Value → Value → Store → Prop}
    (ends : (∃ w', fails w') ∨ ∃ vs left w', comes vs left w')
    (failing : ∀ w', fails w' → c.Applied q x w .failure w')
    (coming : ∀ vs left w' exit u, comes vs left w' →
      (joining (.success vs left)).Ends w' exit u → (c.called q x).Ends w exit u) :
    c.JoinsLast q x w fails comes := by
  have joins {vs left w'} (come : comes vs left w') (texts : ∀ v ∈ vs, v.IsText) :
      c.Applied q x w (.success (joined vs) left) w' :=
    coming _ _ _ _ _ come (joiningEnds texts left)
  have complains {vs left w' i v} (come : comes vs left w') (first : FirstOther vs i v) :
      (c.called q x).Ends w (.raised (.notText i v.kind)) w' :=
    coming _ _ _ _ _ come (joiningRaises first left)
  -- One of these three is how it ends, whatever else is known of the end.
  have ways : (∃ w', fails w') ∨ (∃ vs left w', comes vs left w' ∧ ∀ v ∈ vs, v.IsText) ∨
      ∃ vs left w' i v, comes vs left w' ∧ FirstOther vs i v := by
    refine ends.imp id fun ⟨vs, left, w', come⟩ => ?_
    rcases textsOrOther vs with texts | ⟨i, v, first⟩
    · exact .inl ⟨vs, left, w', come, texts⟩
    · exact .inr ⟨vs, left, w', i, v, come, first⟩
  refine ⟨ends, fun w' => ⟨fun failed => ?_, failing w'⟩, fun fault w' => ⟨fun raised => ?_, ?_⟩,
    fun a left w' => ⟨fun succeeded => ?_, ?_⟩⟩
  · rcases ways with ⟨u, fails⟩ | ⟨_, _, _, come, texts⟩ | ⟨_, _, _, _, _, come, first⟩
    · rwa [(failed.once (failing u fails)).2]
    · cases (failed.once (joins come texts)).1
    · cases (Running.endsOnce failed (complains come first)).1
  · rcases ways with ⟨u, fails⟩ | ⟨_, _, _, come, texts⟩ | ⟨vs, left, _, i, v, come, first⟩
    · cases (Running.endsOnce raised (failing u fails)).1
    · cases (Running.endsOnce raised (joins come texts)).1
    · obtain ⟨same, rfl⟩ := Running.endsOnce raised (complains come first)
      cases same
      exact ⟨vs, left, i, v, come, first, rfl, rfl⟩
  · rintro ⟨vs, left, i, v, come, first, rfl, -⟩
    exact complains come first
  · rcases ways with ⟨u, fails⟩ | ⟨vs, _, _, come, texts⟩ | ⟨_, _, _, _, _, come, first⟩
    · cases (succeeded.once (failing u fails)).1
    · obtain ⟨same, rfl⟩ := succeeded.once (joins come texts)
      cases same
      exact ⟨vs, come, texts, rfl⟩
    · cases (Running.endsOnce succeeded (complains come first)).1
  · rintro ⟨vs, come, texts, rfl⟩
    exact joins come texts

variable {ps vs : List Value} {left : Value} {w' : Store}

theorem InOrder.ran (order : c.InOrder ps x w vs left w') :
    (c.inTurn ps x).Ends w (.done (.success vs left)) w' := by
  induction order with
  | stop => exact Running.endsRet
  | next first _ ih =>
    exact Running.endsThen first.taken (Running.endsThen ih Running.endsRet)

theorem FailsInOrder.ran (fails : c.FailsInOrder ps x w w') :
    (c.inTurn ps x).Ends w (.done .failure) w' := by
  obtain ⟨before, p, behind, vs, mid, u, rfl, order, failed⟩ := fails
  induction order with
  | stop => exact Running.endsThen failed.taken Running.endsRet
  | next first _ ih =>
    exact Running.endsThen first.taken (Running.endsThen (ih failed) Running.endsRet)

theorem FailsInOrder.behind {p v rest : Value} {u : Store}
    (first : c.Applied p x w (.success v rest) u) (fails : c.FailsInOrder ps rest u w') :
    c.FailsInOrder (p :: ps) x w w' := by
  obtain ⟨before, q, behind, vs, mid, u', rfl, order, failed⟩ := fails
  exact ⟨p :: before, q, behind, v :: vs, mid, u', rfl, .next first order, failed⟩

theorem Answering.behind {p v rest : Value} {u : Store} (answering : c.Answering (p :: ps) x w)
    (first : c.Applied p x w (.success v rest) u) : c.Answering ps rest u := by
  rintro before q behind vs mid u' rfl order
  exact answering (p :: before) q behind (v :: vs) mid u' rfl (.next first order)

theorem Answering.fromFirst {p : Value} {o : Outcome Value Value} {u : Store}
    (first : c.Applied p x w o u)
    (others : ∀ v rest, o = .success v rest → c.Answering ps rest u) :
    c.Answering (p :: ps) x w := by
  intro before q behind vs mid u' same order
  cases order with
  | stop =>
    obtain ⟨rfl, rfl⟩ := List.cons.inj same
    exact ⟨o, u, first⟩
  | next head order =>
    obtain ⟨rfl, rfl⟩ := List.cons.inj same
    obtain ⟨same, rfl⟩ := first.once head
    exact others _ _ same _ _ _ _ _ _ rfl order

theorem Answering.ends (answering : c.Answering ps x w) :
    (∃ w', c.FailsInOrder ps x w w') ∨ ∃ vs left w', c.InOrder ps x w vs left w' := by
  induction ps generalizing x w with
  | nil => exact .inr ⟨[], x, w, .stop x w⟩
  | cons p ps ih =>
    obtain ⟨o, u, first⟩ := answering [] p ps [] x w rfl (.stop x w)
    cases o with
    | failure => exact .inl ⟨u, [], p, ps, [], x, w, rfl, .stop x w, first⟩
    | success v rest =>
      rcases ih (answering.behind first) with ⟨w', fails⟩ | ⟨vs, left, w', order⟩
      · exact .inl ⟨w', fails.behind first⟩
      · exact .inr ⟨v :: vs, left, w', .next first order⟩

theorem sequenceJoinsLast (answering : c.Answering ps x w) (mark : Mark) :
    c.JoinsLast (.parser mark (.sequenceText ps)) x w (c.FailsInOrder ps x w)
      (c.InOrder ps x w) := by
  have agrees := c.sequenceTextAgrees mark ps x
  refine joinsLast answering.ends (fun w' fails => ?_) fun vs left w' exit u order joins => ?_
  · exact (agrees _ _ _).mpr (Running.endsThen fails.ran Running.endsRet)
  · exact (agrees _ _ _).mpr (Running.endsThen order.ran joins)

theorem repeatedGathers {p : Value} (greatest : Greatest (c.Applied p) x w vs left w') (mark : Mark)
    {least : Nat} {collect : Collect} {exit : Exit Value} {u : Store}
    (gathers : (gathered least collect (vs, left)).Ends w' exit u) :
    (c.called (.parser mark (.repeated least collect p)) x).Ends w exit u :=
  (c.repeatedUnrolls mark least collect p x _ _ _).mpr
    ⟨vs.length + 1, Running.endsThen (greatest.rounds appliedReadBy []) gathers⟩

theorem repeatedJoinsLast {p : Value} (advancing : Advancing (c.Applied p) x w) (mark : Mark)
    (least : Nat) : c.JoinsLast (.parser mark (.repeated least .joined p)) x w
      (fun w' => ∃ vs left, Greatest (c.Applied p) x w vs left w' ∧ vs.length < least)
      (fun vs left w' => Greatest (c.Applied p) x w vs left w' ∧ least ≤ vs.length) := by
  refine joinsLast ?_ ?_ ?_
  · obtain ⟨vs, left, w', greatest⟩ := advancing.greatest
    rcases Nat.lt_or_ge vs.length least with few | enough
    · exact .inl ⟨w', vs, left, greatest, few⟩
    · exact .inr ⟨vs, left, w', greatest, enough⟩
  · rintro w' ⟨vs, left, greatest, few⟩
    refine repeatedGathers greatest mark ?_
    rw [gathered, if_pos few]
    exact Running.endsRet
  · rintro vs left w' exit u ⟨greatest, enough⟩ joins
    refine repeatedGathers greatest mark ?_
    rw [gathered, if_neg (Nat.not_lt.mpr enough)]
    exact joins

theorem inTurnAppend (ps qs : List Value) (x : Value) : c.inTurn (ps ++ qs) x =
    (c.inTurn ps x).bind (onward fun vs rest =>
      (c.inTurn qs rest).bind <| onward fun ws left => .ret (.success (vs ++ ws) left)) := by
  induction ps generalizing x with
  | nil =>
    refine (Running.bindRet _).symm.trans (congrArg _ (funext fun o => ?_))
    cases o <;> rfl
  | cons p ps ih =>
    simp only [List.cons_append, inTurn, onwardBind, ih]
    rfl

theorem joinedParts (vs ws : List Value) : joined [joined vs, joined ws] = joined (vs ++ ws) := by
  simp [joined, Value.plain]

variable {fits : Value → Prop}

theorem sequenceTaken (outcomes : ∀ p ∈ ps, c.GivesOnly fits Value.IsText p) (fit : fits x)
    (mark : Mark) : Agree (c.taken (.parser mark (.sequenceText ps)) x)
      ((c.inTurn ps x).bind <| onward fun vs left => .ret (.success (joined vs) left)) :=
  viewedOf (outcomeIsRead "value") (sequenceTextInTurn outcomes fit mark)

theorem partsJoin {qs : List Value} (outcomes : ∀ p ∈ ps ++ qs, c.GivesOnly fits Value.IsText p)
    (fit : fits x) (i j k m : Mark) :
    Agree (c.called (.parser i (.sequenceText (ps ++ qs))) x)
      (c.called (.parser j (.sequenceText
        [.parser k (.sequenceText ps), .parser m (.sequenceText qs)])) x) := by
  obtain ⟨first, second⟩ := List.forall_mem_append.mp outcomes
  refine (sequenceTextInTurn outcomes fit i).trans (.symm ((c.sequenceTextAgrees j _ x).trans ?_))
  refine (((sequenceTaken first fit k).head _).head _).trans ?_
  simp only [inTurnTo, outcomeOf, inTurnAppend, Running.bindAssoc]
  refine .given (inTurnGives first fit) fun o held => ?_
  cases o with
  | failure => exact .refl _
  | success vs rest =>
    obtain ⟨-, fit⟩ := held vs rest rfl
    simp only [onward, Running.retBind, inTurn, Running.bindAssoc]
    refine ((sequenceTaken second fit m).head _).trans ?_
    rw [Running.bindAssoc]
    refine .tail _ fun o => ?_
    cases o with
    | failure => exact .refl _
    | success ws left =>
      have texts : ∀ v ∈ [joined vs, joined ws], v.IsText := by simp [joined, Value.IsText]
      simp only [onward, Running.retBind, joiningTexts texts, joinedParts]
      exact .refl _

end

end Calling

/-- Values are joined only when all have come. Until then a failure is a failure, whatever came
before it. A sequence may be cut in two, and the texts of the parts joined. -/
theorem textsAreJoinedLast (c : Calling) (x : Value) (w : Store) :
    (∀ mark ps, c.Answering ps x w → c.JoinsLast (.parser mark (.sequenceText ps)) x w
      (c.FailsInOrder ps x w) (c.InOrder ps x w)) ∧
    (∀ mark least p, Advancing (c.Applied p) x w →
      c.JoinsLast (.parser mark (.repeated least .joined p)) x w
        (fun w' => ∃ vs left, Greatest (c.Applied p) x w vs left w' ∧ vs.length < least)
        (fun vs left w' => Greatest (c.Applied p) x w vs left w' ∧ least ≤ vs.length)) ∧
    ∀ fits ps qs, (∀ p ∈ ps ++ qs, c.GivesOnly fits Value.IsText p) → fits x → ∀ i j k m,
      Agree (c.called (.parser i (.sequenceText (ps ++ qs))) x)
        (c.called (.parser j (.sequenceText
          [.parser k (.sequenceText ps), .parser m (.sequenceText qs)])) x) :=
  ⟨fun mark _ answering => Calling.sequenceJoinsLast answering mark,
    fun mark least _ advancing => Calling.repeatedJoinsLast advancing mark least,
    fun _ _ _ outcomes fit i j k m => Calling.partsJoin outcomes fit i j k m⟩

def numberBetween : List Value := [notedA, .parser (.made 3) (.ret (.int 7)), charA]

theorem numberAmongLetters :
    let noted : Store := ⟨#[], #[.note valueA], 0⟩
    let mixed : Value := .parser (.made 4) (.sequenceText numberBetween)
    (Calling.script.called mixed (.str ['a', 'a'])).Ends .empty (.raised (.notText 1 .int)) noted ∧
    Calling.script.Applied mixed (.str ['a', 'b']) .empty .failure noted ∧
    Calling.script.Applied (.parser (.made 5) (.repeated 1 .joined charA)) (.str ['a', 'a', 'b'])
      .empty (.success (.str ['a', 'a']) (.str ['b'])) .empty ∧
    Agree (Calling.script.called (.parser (.made 6) (.sequenceText (twoWords ++ twoWords)))
        (.str ['a', 'a', 'b']))
      (Calling.script.called (.parser (.made 7) (.sequenceText [.parser (.made 8)
        (.sequenceText twoWords), .parser (.made 9) (.sequenceText twoWords)]))
        (.str ['a', 'a', 'b'])) := by
  intro noted mixed
  have letter (c : Char) : Calling.script.Applied notedA (.str ['a', c]) .empty
      (.success valueA (.str [c])) noted := ⟨nofun, 3, rfl⟩
  have number (c : Char) : Calling.script.Applied (.parser (.made 3) (.ret (.int 7))) (.str [c])
      noted (.success (.int 7) (.str [c])) noted := ⟨nofun, 1, rfl⟩
  have last : Calling.script.Applied charA (.str ['a']) noted (.success valueA (.str [])) noted :=
    ⟨nofun, 1, rfl⟩
  have none : Calling.script.Applied charA (.str ['b']) noted .failure noted := ⟨nofun, 1, rfl⟩
  have answering (c : Char) {o} (there : Calling.script.Applied charA (.str [c]) noted o noted) :
      Calling.script.Answering numberBetween (.str ['a', c]) .empty := by
    refine .fromFirst (letter c) ?_
    rintro _ _ ⟨⟩
    refine .fromFirst (number c) ?_
    rintro _ _ ⟨⟩
    refine .fromFirst there fun _ _ _ => ?_
    rintro before p behind vs mid u same
    cases before <;> cases same
  refine ⟨?_, ?_, ?_, ?_⟩
  · have joins := (textsAreJoinedLast Calling.script (.str ['a', 'a']) .empty).1 (.made 4)
      numberBetween (answering 'a' last)
    refine (joins.raises _ _).mpr ⟨[valueA, .int 7, valueA], .str [], 1, .int 7, ?_, ?_, rfl, rfl⟩
    · exact .next (letter 'a') (.next (number 'a') (.next last (.stop _ _)))
    · exact ⟨rfl, nofun, by simp [valueA, Value.IsText]⟩
  · have joins := (textsAreJoinedLast Calling.script (.str ['a', 'b']) .empty).1 (.made 4)
      numberBetween (answering 'b' none)
    refine (joins.failure _).mpr
      ⟨numberBetween.take 2, charA, [], [valueA, .int 7], _, noted, rfl, ?_, none⟩
    exact .next (letter 'b') (.next (number 'b') (.stop _ _))
  · have advancing : Advancing (Calling.script.Applied charA) (.str ['a', 'a', 'b']) .empty := by
      refine advancingOnTexts Calling.appliedReadBy (fun text w => ?_) _ _
      obtain ⟨o, applied, shorter⟩ := charBrief Calling.script (.made 1) 'a' text w
      exact ⟨o, w, applied, fun v rest same => (shorter v rest same).2⟩
    have joins := (textsAreJoinedLast Calling.script (.str ['a', 'a', 'b']) .empty).2.1 (.made 5) 1
      charA advancing
    refine (joins.succeeds _ _ _).mpr ⟨[valueA, valueA], ⟨⟨.empty, ?_, ?_⟩, by decide⟩, ?_, rfl⟩
    · exact .next ⟨nofun, 1, rfl⟩ (.next ⟨nofun, 1, rfl⟩ (.stop _ _))
    · exact ⟨nofun, 1, rfl⟩
    · simp [valueA, Value.IsText]
  · refine (textsAreJoinedLast Calling.script (.str ['a', 'a', 'b']) .empty).2.2 Value.IsText
      twoWords twoWords ?_ ⟨_, rfl⟩ _ _ _ _
    simp [twoWords, wordGivesText]

end ParseKit.Script
