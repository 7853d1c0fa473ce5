import ParseKit.Proofs.Exchange.Block
import ParseKit.Proofs.Passing

/-! Parsers applied to texts, where parsers are exchanged in their operands. -/
namespace ParseKit.Script

section
variable {X : Exchange} {K : Accord X} {α : Type}

abbrev ParsesAlong (K : Accord X) (p : Parser Value Store Value)
    (q : Nat → Parser Value Store Value) : Prop :=
  K.following.Parses (alikes X) .only (alikes X) p q

theorem giveAlong {p : Parser Value Store Value} {q : Nat → Parser Value Store Value} {x x' : Value}
    (along : Along K (outcomes X) (p x) (fun n => q n x')) :
    Along K (Value.Alike X) (give p x) (fun n => give (q n) x') :=
  along.bind fun o o' alike => by
    cases o <;> cases o' <;> try exact alike.elim
    · exact .done .failure
    · exact .done (.success alike.1 alike.2)

section
variable (text : Text)

theorem readingAlong {onTexts : Parser Text Store α} (answers : ∃ o, onTexts text = pure o)
    {value : α → Value} (itself : ∀ a, (value a).Alike X (value a)) {p : Parser Value Store Value}
    {q : Nat → Parser Value Store Value} :
    Along K (outcomes X) (reading onTexts value p (.str text))
      (fun n => reading onTexts value (q n) (.str text)) := by
  obtain ⟨o, same⟩ := answers
  simp only [reading, same]
  cases o with
  | failure => exact .done trivial
  | success a rest => exact .done ⟨itself a, .str rest⟩

theorem satAlong (test : Char → Bool) {p : Parser Value Store Value}
    {q : Nat → Parser Value Store Value} :
    Along K (outcomes X) (reading (Parser.sat test) .ofChar p (.str text))
      (fun n => reading (Parser.sat test) .ofChar (q n) (.str text)) :=
  readingAlong text (readsAnswers (Reads.sat test text)) fun _ => .str _

theorem itemAlong : Along K (outcomes X) (item (.str text)) (fun _ => item (.str text)) := by
  refine readingAlong text ?_ fun _ => .str _
  cases text with
  | nil => exact ⟨_, rfl⟩
  | cons c rest => exact ⟨_, rfl⟩

theorem leafAlong (l : Leaf) (m : Nat) (n : Nat → Nat) :
    Along K (outcomes X) (l.parser m (.str text)) (fun k => l.parser (n k) (.str text)) := by
  cases l with
  | item => exact itemAlong text
  | fail => exact .done trivial
  | eof =>
    cases text with
    | nil => exact .done ⟨.none, .str []⟩
    | cons c rest => exact .done trivial
  | num =>
    exact readingAlong text (p := Leaf.num.parser m) (q := fun k => Leaf.num.parser (n k))
      (readsAnswers (numReads text)) fun x => .float rfl rfl
  | ofClass c =>
    exact satAlong text _ (p := (Leaf.ofClass c).parser m) (q := fun k => (Leaf.ofClass c).parser (n k))

theorem anyWordAlong {words words' more more' : List Value} (all : AllAlike X words words')
    (others : AllAlike X more more') :
    Along K (outcomes X) (anyWord words text more) (fun _ => anyWord words' text more') := by
  replace others := others.forall₂
  induction others with
  | nil => exact .done trivial
  | @cons v v' vs vs' first _ ih =>
    cases first.shaped with
    | str w =>
      simp only [anyWord, all.length]
      split
      · exact .done ⟨.tuple all, .str _⟩
      · exact ih
    | _ => exact .raise _

theorem stringAlong {word word' : Value} (alike : word.Alike X word') :
    Along K (outcomes X) (string word (.str text)) (fun _ => string word' (.str text)) := by
  cases alike.shaped with
  | str w =>
    refine readingAlong text (p := Parser.fail) (q := fun _ => Parser.fail) ?_ fun _ => .str _
    unfold Parser.string
    cases text.afterWord? w with
    | none => exact ⟨_, rfl⟩
    | some rest => exact ⟨_, rfl⟩
  | tuple words => exact anyWordAlong text words words
  | _ => exact .raise _

theorem traceAlong (label : Text) :
    Along K (outcomes X) (trace label (.str text)) (fun _ => trace label (.str text)) :=
  ((Along.record _).bind fun _ _ _ => Along.done (R := Eq) rfl).bind fun o o' same => by
    subst same
    cases o with
    | failure => exact .done trivial
    | success _ rest => exact .done ⟨.none, .str rest⟩

end

theorem joinAlong {vs vs' : List Value} (alike : AllAlike X vs vs') :
    Along K (Value.Alike X) (joinTexts vs) (fun _ => joinTexts vs') := by
  have same : allTexts 0 vs = allTexts 0 vs' := by
    rw [← Value.allTextsSeen, alike.seen, Value.allTextsSeen]
  simp only [joinTexts, same]
  cases allTexts 0 vs' with
  | ok texts => exact .done (.str _)
  | error wrong => exact .raise _

theorem collectAlong (collect : Collect) {vs vs' : List Value} (alike : AllAlike X vs vs') :
    Along K (Value.Alike X) (collect.apply vs) (fun _ => collect.apply vs') := by
  cases collect with
  | asList => exact .done (.list alike)
  | joined => exact joinAlong alike
  | dropped => exact .done .none

section
variable {a : Applier} {b : Nat → Applier} (applies : AppliersAlong K a b)
include applies

theorem readByAlong {view : Value → Except Fault (Outcome Value Value)}
    (views : ∀ {v v'}, Value.Alike X v v' → ResultAlike (outcomes X) (view v) (view v'))
    {p p' x x' : Value} (parsers : p.Alike X p') (inputs : x.Alike X x') :
    Along K (outcomes X) (readBy a view p x) (fun n => readBy (b n) view p' x') :=
  (applies parsers inputs).bind fun _ _ alike => Along.ofResult (views alike)

section
variable {p p' : Value} (parsers : p.Alike X p')
include parsers

theorem readAlong : ParsesAlong K (read a p) (fun n => read (b n) p') := fun _ _ _ _ input =>
  readByAlong applies (fun alike => alike.outcome "value") parsers input

theorem readRestAlong : ParsesAlong K (readRest a p) (fun n => readRest (b n) p') :=
  fun _ _ _ _ input => readByAlong applies (fun alike => alike.outcome "remaining") parsers input

theorem readPartsAlong : ParsesAlong K (readParts a p) (fun n => readParts (b n) p') :=
  fun _ _ _ _ input => readByAlong applies (fun alike => alike.outcomeByParts) parsers input

theorem readWithAlong (operation : String) :
    ParsesAlong K (readWith a operation p) (fun n => readWith (b n) operation p') := by
  have reads := readAlong applies parsers
  cases parsers.shaped with
  | parser => exact reads
  | _ => exact fun _ _ _ _ _ => .raise _

theorem separatorAlong {sep sep' : Value} (separators : sep.Alike X sep') :
    ParsesAlong K (separator a p sep) (fun n => separator (b n) p' sep') := by
  have reads := readAlong applies separators
  have operand := readAlong applies parsers
  have other (kind : Kind) : ParsesAlong K
      ((read a p).bind fun _ _ => Eff.raise (.lacks kind "map"))
      (fun n => (read (b n) p').bind fun _ _ => Eff.raise (.lacks kind "map")) :=
    operand.bind fun _ _ _ _ _ _ _ _ _ _ => .raise _
  cases separators.shaped with
  | parser => exact reads
  | _ => exact other _

end

theorem firstOfAlong {ps ps' : List Value} (parsers : AllAlike X ps ps') {x x' : Value}
    (input : x.Alike X x') :
    Along K (Value.Alike X) (firstOf a ps x) (fun n => firstOf (b n) ps' x') := by
  replace parsers := parsers.forall₂
  induction parsers with
  | nil => exact .done .failure
  | @cons p p' ps ps' first others ih =>
    cases others with
    | nil => exact applies first input
    | cons second others =>
      refine (applies first input).bind fun r r' alike => ?_
      rw [alike.truth]
      split
      · exact .done alike
      · exact ih

end

section
variable {a : Applier} {b : Nat → Applier} (applies : AppliersAlong K a b) {c : Caller}
  {d : Nat → Caller} (calls : CallersAlong K c d)
include applies calls

theorem applyAlong {m : Nat} {n : Nat → Nat} (le : ∀ k, m ≤ n k) {g g' : Grammar}
    (alike : g.Alike X g') (unshared : ∀ id, g ≠ .shared id)
    (unblocked : ∀ env body, g ≠ .block env body) (text : Text) :
    Along K (Value.Alike X) (g.applyWith a c m (.str text))
      (fun k => g'.applyWith (b k) (d k) (n k) (.str text)) := by
  have input : (alikes X).holds .only (.str text) (.str text) := Value.Alike.str text
  have reads {p p'} (parsers : Value.Alike X p p') := readAlong applies parsers
  have rests {p p'} (parsers : Value.Alike X p p') := readRestAlong applies parsers
  have here {p q} (along : ParsesAlong K p q) : Along K (Value.Alike X) (give p (.str text))
      (fun k => give (q k) (.str text)) := giveAlong (along .only _ _ trivial input)
  have called {f f' v v'} (function : Value.Alike X f f') (value : Value.Alike X v v') :
      Along K (Value.Alike X) (c f [v] []) (fun n => d n f' [v'] []) :=
    calls function (.cons value .nil) .nil
  have collected {vs vs'} (items : (alikes X).list.holds .only vs vs') : AllAlike X vs vs' :=
    .ofForall₂ items
  cases alike with
  | leaf l => exact giveAlong (leafAlong text l m n)
  | ret value => exact giveAlong (.done ⟨value, .str text⟩)
  | @char v v' value =>
    have same : Value.characters [v] = Value.characters [v'] := by
      rw [← Value.charactersSeen, (AllAlike.cons value .nil).seen, Value.charactersSeen]
    simp only [Grammar.applyWith, charEqual, same]
    exact giveAlong (satAlong text _)
  | string word => exact giveAlong (stringAlong text word)
  | @oneOf vs vs' members =>
    have same : Value.characters vs = Value.characters vs' := by
      rw [← Value.charactersSeen, members.seen, Value.charactersSeen]
    simp only [Grammar.applyWith, Script.oneOf, same]
    exact giveAlong (satAlong text _)
  | @noneOf vs vs' members =>
    have same : Value.characters vs = Value.characters vs' := by
      rw [← Value.charactersSeen, members.seen, Value.charactersSeen]
    simp only [Grammar.applyWith, Script.noneOf, same]
    exact giveAlong (satAlong text _)
  | sat test =>
    refine giveAlong ((itemAlong text).bind fun o o' alike => ?_)
    cases o <;> cases o' <;> try exact alike.elim
    · exact .done trivial
    · refine ((called test alike.1).bind fun r r' kept => Along.done kept.truth).bind
        fun kept kept' same => ?_
      subst same
      cases kept with
      | true => exact .done alike
      | false => exact .done trivial
  | trace label => exact giveAlong (traceAlong text label)
  | bind head function =>
    refine (reads head .only _ _ trivial input).bind fun o o' alike => ?_
    cases o <;> cases o' <;> try exact alike.elim
    · exact .done .failure
    · exact (called function alike.1).bind fun _ _ parser => applies parser alike.2
  | map head function => exact here ((reads head).mapM fun _ _ _ _ value => called function value)
  | choice parsers => exact firstOfAlong applies parsers input
  | option default inner =>
    refine (applies inner input).bind fun r r' alike => ?_
    rw [alike.truth]
    split
    · exact .done alike
    · exact .done (.success default input)
  | pair first second =>
    exact here (((rests first).pair (reads second)).map fun _ _ _ _ both =>
      .tuple (.cons both.1 (.cons both.2 .nil)))
  | keepRight first second =>
    refine (reads first .only _ _ trivial input).bind fun o o' alike => ?_
    cases o <;> cases o' <;> try exact alike.elim
    · exact .done .failure
    · exact applies second alike.2
  | keepLeft first second =>
    exact here ((reads first).keepLeft (readWithAlong applies second "map"))
  | repeated least collect inner =>
    exact here (((reads inner).repeated le least).mapM fun _ _ _ _ items =>
      collectAlong collect (collected items))
  | @sequenceText ps ps' parsers =>
    have each : List.Forall₂ (fun q p => ParsesAlong K q fun n => read (b n) p) (ps.map (read a)) ps' := by
      rw [List.forall₂_map_left_iff]
      exact parsers.forall₂.imp fun _ _ => reads
    exact here (Simulation.Parses.mapM (.sequenceFrom each .nil) fun _ _ _ _ items =>
      joinAlong (collected items))
  | count n inner =>
    exact here (((reads inner).countFrom .nil n.toNat).map fun _ _ _ _ items =>
      .list (collected items))
  | between opening closing inner =>
    exact here ((reads opening).between (readWithAlong applies closing "bind")
      (readWithAlong applies inner "bind"))
  | optional inner => exact here ((reads inner).optional.map fun _ _ _ _ _ => .none)
  | sepBy operand sep =>
    exact here (((reads operand).sepByWithin (separatorAlong applies operand sep) le).map
      fun _ _ _ _ items => .list (collected items))
  | sepBy1 operand sep =>
    exact here (((reads operand).sepBy1Within (separatorAlong applies operand sep) le).map
      fun _ _ _ _ items => .list (collected items))
  | chainl1 operand operator =>
    exact here ((readPartsAlong applies operand).bind fun _ _ _ _ first =>
      Simulation.Parses.chainAfter (reads operand) (rests operator)
        (fun _ _ _ _ _ _ _ _ function left right =>
          calls function (.cons left (.cons right .nil)) .nil) le first)
  | shared _ => exact absurd rfl (unshared _)
  | block _ body => exact absurd rfl (unblocked _ _)
  | raising fault => exact .raise fault

end

end

end ParseKit.Script
