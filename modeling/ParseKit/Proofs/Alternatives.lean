import ParseKit.Proofs.Chaining
import ParseKit.Proofs.Watching

/-! Alternatives in a list. They are tried in order and on the same input until one does not fail.
Main statement: what is built from a list gives what the first parser gives that succeeds, behind
failures of all before it, and two lists one after the other are alternatives of each other. -/
namespace ParseKit.Script

def choosing (ps : List Value) : Run Value := do
  Run.make (← Eff.ofExcept (Unary.choice.build (.list ps)))

def either (p q : Value) : Run Value := do
  Run.make (← Eff.ofExcept (Binary.alt.build p q))

def Makes (x : Run Value) (v : Value) : Prop := ∃ w w', x w = (.done v, w')

theorem choosingMakes : {ps : List Value} → (∀ p ∈ ps, p.isParser = true) → (w : Store) →
    ∃ a w', choosing ps w = (.done a, w')
  | [], _, _ => ⟨_, _, rfl⟩
  | [_], _, _ => ⟨_, _, rfl⟩
  | p :: q :: ps, parsers, _ => by
    obtain ⟨m, g, rfl⟩ := Value.parserOf (parsers p List.mem_cons_self)
    exact ⟨_, _, rfl⟩

namespace Calling
variable (c : Calling)

def tried : (ps : List Value) → (x : Value) → Running Value
  | [], _ => .ret .failure
  | p :: ps, x => (c.called p x).bind fun r => if r.truth then .ret r else tried ps x

inductive Failing (x : Value) : List Value → Store → Store → Prop where
  | none (w : Store) : Failing x [] w w
  | next {p : Value} {ps : List Value} {w u w' : Store} (first : c.Applied p x w .failure u)
      (others : Failing x ps u w') : Failing x (p :: ps) w w'

def Reached (ps : List Value) (x : Value) (w : Store) (exit : Exit Value) (w' : Store) : Prop :=
  ∃ before p after u, ps = before ++ p :: after ∧ c.Failing x before w u ∧
    (c.called p x).Ends u exit w'

section
variable {c} {ps : List Value}

theorem triedAppend (qs : List Value) (x : Value) : c.tried (ps ++ qs) x =
    (c.tried ps x).bind fun r => if r.truth then .ret r else c.tried qs x := by
  induction ps with
  | nil => rfl
  | cons p ps ih =>
    rw [List.cons_append, tried, tried, Running.bindAssoc]
    congr 1
    funext r
    cases truth : r.truth with
    | true => simp [Running.retBind, truth]
    | false => exact ih

theorem firstOfTried : (ps : List Value) → (∀ p ∈ ps, c.GivesOutcomes p) → (limit : Nat) →
    (x : Value) → firstOf (applyBy (c.call limit)) ps x = (c.tried ps x).within limit
  | [], _, _, _ => rfl
  | [p], outcomes, limit, x => by
    have outcome := outcomes p List.mem_cons_self x limit
    refine (bind_pure _).symm.trans (outcome.congr fun r isOutcome => ?_)
    obtain ⟨_, _, _, fails⟩ := outcomeBack isOutcome
    dsimp only
    split
    · rfl
    · next falls => exact fails (Bool.not_eq_true _ ▸ falls) ▸ rfl
  | p :: q :: ps, outcomes, limit, x => by
    refine bind_congr fun r => ?_
    dsimp only
    split
    · rfl
    · exact firstOfTried (q :: ps) (List.forall_mem_cons.mp outcomes).2 limit x

theorem reachedCons {p x : Value} {w w' : Store} {exit : Exit Value} :
    c.Reached (p :: ps) x w exit w' ↔ (c.called p x).Ends w exit w' ∨
      ∃ u, c.Applied p x w .failure u ∧ c.Reached ps x u exit w' := by
  constructor
  · rintro ⟨before, q, after, u, same, failing, ends⟩
    cases failing with
    | none =>
      cases same
      exact .inl ends
    | next first others =>
      cases same
      exact .inr ⟨_, first, _, q, after, u, rfl, others, ends⟩
  · rintro (ends | ⟨u, first, before, q, after, v, rfl, failing, ends⟩)
    · exact ⟨[], p, ps, w, rfl, .none w, ends⟩
    · exact ⟨p :: before, q, after, v, rfl, .next first failing, ends⟩

theorem triedCons {p : Value} (outcomes : c.GivesOutcomes p) {x : Value} {w w' : Store}
    {exit : Exit Value} : (c.tried (p :: ps) x).Ends w exit w' ↔
      (exit ≠ .done .failure ∧ (c.called p x).Ends w exit w') ∨
        ∃ u, c.Applied p x w .failure u ∧ (c.tried ps x).Ends u exit w' := by
  rw [tried, Running.endsBind]
  constructor
  · rintro (⟨r, u, first, last⟩ | ⟨fault, first, rfl⟩)
    · obtain ⟨_, limit, run⟩ := first
      obtain ⟨o, _, rfl, _⟩ := outcomeBack (outcomes x limit w r u run)
      cases o with
      | failure => exact .inr ⟨u, ⟨nofun, limit, run⟩, last⟩
      | success v rest =>
        obtain ⟨rfl, rfl⟩ := Running.endsOnce Running.endsRet last
        exact .inl ⟨nofun, nofun, limit, run⟩
    · exact .inl ⟨nofun, first⟩
  · rintro (⟨other, first⟩ | ⟨u, first, last⟩)
    · cases exit with
      | done r =>
        obtain ⟨_, limit, run⟩ := first
        obtain ⟨o, _, rfl, _⟩ := outcomeBack (outcomes x limit w r w' run)
        cases o with
        | failure => exact absurd rfl other
        | success v rest => exact .inl ⟨_, w', ⟨nofun, limit, run⟩, Running.endsRet⟩
      | raised fault => exact .inr ⟨fault, first, rfl⟩
      | exhausted => exact absurd rfl first.1
    · exact .inl ⟨.failure, u, first, last⟩

theorem triedEnds (outcomes : ∀ p ∈ ps, c.GivesOutcomes p) {x : Value} {w w' : Store}
    {exit : Exit Value} : (c.tried ps x).Ends w exit w' ↔
      (exit = .done .failure ∧ c.Failing x ps w w') ∨
        (exit ≠ .done .failure ∧ c.Reached ps x w exit w') := by
  induction ps generalizing w with
  | nil =>
    constructor
    · intro ends
      obtain ⟨rfl, rfl⟩ := Running.endsOnce Running.endsRet ends
      exact .inl ⟨rfl, .none w⟩
    · rintro (⟨rfl, ⟨⟩⟩ | ⟨_, before, p, after, u, same, _⟩)
      · exact Running.endsRet
      · simp at same
  | cons p ps ih =>
    obtain ⟨first, others⟩ := List.forall_mem_cons.mp outcomes
    rw [triedCons first, reachedCons]
    simp only [ih others]
    constructor
    · rintro (⟨other, ends⟩ | ⟨u, failed, ⟨rfl, failing⟩ | ⟨other, reached⟩⟩)
      · exact .inr ⟨other, .inl ends⟩
      · exact .inl ⟨rfl, .next failed failing⟩
      · exact .inr ⟨other, .inr ⟨u, failed, reached⟩⟩
    · rintro (⟨rfl, failing⟩ | ⟨other, ends | ⟨u, failed, reached⟩⟩)
      · cases failing with
        | next failed failing => exact .inr ⟨_, failed, .inl ⟨rfl, failing⟩⟩
      · exact .inl ⟨other, ends⟩
      · exact .inr ⟨u, failed, .inr ⟨other, reached⟩⟩

theorem choosingTried : {ps : List Value} → {a : Value} → Makes (choosing ps) a →
    (∀ p ∈ ps, p.isParser = true) → (∀ p ∈ ps, c.GivesOutcomes p) → (x : Value) →
      Agree (c.called a x) (c.tried ps x)
  | [], _, ⟨_, _, made⟩, _, _, x => by
    cases made
    exact c.failAgrees x
  | [p], _, ⟨_, _, made⟩, _, outcomes, x => by
    cases made
    exact .same fun limit => firstOfTried [p] outcomes limit x
  | p :: q :: ps, _, ⟨_, _, made⟩, parsers, outcomes, x => by
    obtain ⟨m, g, rfl⟩ := Value.parserOf (parsers p List.mem_cons_self)
    cases made
    exact .later fun limit => (c.applies limit _ _ x).trans (firstOfTried _ outcomes limit x)

theorem madeIsParser : {ps : List Value} → {a : Value} → Makes (choosing ps) a →
    (∀ p ∈ ps, p.isParser = true) → a.isParser = true
  | [], _, ⟨_, _, made⟩, _ => by
    cases made
    rfl
  | [p], _, ⟨_, _, made⟩, parsers => by
    cases made
    exact parsers p List.mem_cons_self
  | p :: q :: ps, _, ⟨_, _, made⟩, parsers => by
    obtain ⟨m, g, rfl⟩ := Value.parserOf (parsers p List.mem_cons_self)
    cases made
    rfl

end

def folded (mark : Mark) : Value → List Value → Value
  | p, [] => p
  | p, q :: ps => folded mark (.parser mark (.choice [p, q])) ps

def triedLast : Value → List Value → Value → Running Value
  | p, [], x => c.called p x
  | p, q :: ps, x => (c.called p x).bind fun r => if r.truth then .ret r else triedLast q ps x

theorem foldedAgrees (mark : Mark) (p : Value) (ps : List Value) (x : Value) :
    Agree (c.called (folded mark p ps) x) (c.triedLast p ps x) := by
  induction ps generalizing p with
  | nil => exact .refl _
  | cons q ps ih =>
    refine (ih _).trans ?_
    cases ps with
    | nil => exact c.choiceAgrees mark p q x
    | cons r ps =>
      refine ((c.choiceAgrees mark p q x).head _).trans ?_
      rw [chosen, Running.bindAssoc]
      refine .tail _ fun s => ?_
      cases truth : s.truth with
      | true => simp [Running.retBind, truth, Agree.refl]
      | false => exact .refl _

theorem firstOfLast (limit : Nat) (p : Value) (ps : List Value) (x : Value) :
    firstOf (applyBy (c.call limit)) (p :: ps) x = (c.triedLast p ps x).within limit := by
  induction ps generalizing p with
  | nil => rfl
  | cons q ps ih =>
    refine bind_congr fun r => ?_
    dsimp only
    split
    · rfl
    · exact ih q

theorem choosingFolds {p a : Value} {ps : List Value} (parser : p.isParser = true)
    (made : Makes (choosing (p :: ps)) a) (mark : Mark) (x : Value) :
    Agree (c.called a x) (c.called (folded mark p ps) x) := by
  obtain ⟨w, w', made⟩ := made
  cases ps with
  | nil =>
    cases made
    exact .refl _
  | cons q ps =>
    obtain ⟨m, g, rfl⟩ := Value.parserOf parser
    cases made
    refine .trans (.later fun limit => ?_) (c.foldedAgrees mark _ _ x).symm
    exact (c.applies limit _ _ x).trans (c.firstOfLast limit _ _ x)

/- The first success of some parsers, on an input and from any store. A parser is applied if all before
it fail, each of which is applied just before the next, and once; nothing behind it is applied. -/
structure FirstSuccess (ps : List Value) (x a : Value) : Prop where
  succeeds : ∀ w v rest w', c.Applied a x w (.success v rest) w' ↔
    c.Reached ps x w (.done (.success v rest)) w'
  fails : ∀ w w', c.Applied a x w .failure w' ↔ c.Failing x ps w w'
  raises : ∀ w fault w', (c.called a x).Ends w (.raised fault) w' ↔
    c.Reached ps x w (.raised fault) w'

section
variable {c} {ps qs : List Value} (parsers : ∀ p ∈ ps, p.isParser = true)
  (outcomes : ∀ p ∈ ps, c.GivesOutcomes p)
include parsers outcomes

theorem endsReached {a : Value} (made : Makes (choosing ps) a) {x : Value} {w w' : Store}
    {exit : Exit Value} (other : exit ≠ .done .failure) :
    (c.called a x).Ends w exit w' ↔ c.Reached ps x w exit w' := by
  refine (choosingTried made parsers outcomes x w exit w').trans ((triedEnds outcomes).trans ?_)
  refine ⟨?_, fun reached => .inr ⟨other, reached⟩⟩
  rintro (⟨same, -⟩ | ⟨-, reached⟩)
  · exact absurd same other
  · exact reached

theorem firstSuccess {a : Value} (made : Makes (choosing ps) a) (x : Value) :
    c.FirstSuccess ps x a where
  succeeds _ _ _ _ := endsReached parsers outcomes made nofun
  raises _ _ _ := endsReached parsers outcomes made nofun
  fails w w' := by
    refine (choosingTried made parsers outcomes x w _ w').trans ((triedEnds outcomes).trans ?_)
    refine ⟨?_, fun failing => .inl ⟨rfl, failing⟩⟩
    rintro (⟨-, failing⟩ | ⟨other, -⟩)
    · exact failing
    · exact absurd rfl other

end
section
variable {c} {ps qs : List Value} (parsers : ∀ p ∈ ps ++ qs, p.isParser = true)
  (outcomes : ∀ p ∈ ps ++ qs, c.GivesOutcomes p) {a b d e : Value}
include parsers outcomes

theorem choosingAppend (all : Makes (choosing (ps ++ qs)) a) (left : Makes (choosing ps) b)
    (right : Makes (choosing qs) d) (made : Makes (either b d) e) (x : Value) :
    Agree (c.called a x) (c.called e x) := by
  have former := List.forall_mem_append.mp parsers
  have latter := List.forall_mem_append.mp outcomes
  obtain ⟨m, g, rfl⟩ := Value.parserOf (madeIsParser left former.1)
  obtain ⟨w, w', made⟩ := made
  cases made
  refine (choosingTried all parsers outcomes x).trans ?_
  rw [triedAppend]
  refine .symm ((c.choiceAgrees _ _ d x).trans (c.alternativeAgrees ?_ ?_))
  · exact choosingTried left former.1 latter.1 x
  · exact choosingTried right former.2 latter.2 x

end

end Calling

theorem eitherMakes {b : Value} (parser : b.isParser = true) (d : Value) (w : Store) :
    ∃ e w', either b d w = (.done e, w') := by
  obtain ⟨m, g, rfl⟩ := Value.parserOf parser
  exact ⟨_, _, rfl⟩

theorem afterWordPrefix (text word : Text) : text.afterWord? word =
    if word.isPrefixOf text then some (text.drop word.length) else none := by
  induction word generalizing text with
  | nil => cases text <;> rfl
  | cons c word ih =>
    cases text with
    | nil => rfl
    | cons d text =>
      by_cases same : c = d
      · subst same
        simp [Text.afterWord?, ih]
      · simp [Text.afterWord?, same]

def firstWord (text : Text) (words : List Text) : Value :=
  match words.find? (·.isPrefixOf text) with
  | none => .failure
  | some word => .success (.str word) (.str (text.drop word.length))

def wordParser (word : Mark × Text) : Value := .parser word.1 (.string (.str word.2))

theorem wordAgrees (c : Calling) (word : Mark × Text) (text : Text) :
    Agree (c.called (wordParser word) (.str text)) (.ret (if word.2.isPrefixOf text then
      .success (.str word.2) (.str (text.drop word.2.length)) else .failure)) := by
  refine .later fun limit => (c.applies limit _ _ _).trans ?_
  simp only [Grammar.applyWith, give, Script.string, reading, Parser.string, afterWordPrefix]
  cases word.2.isPrefixOf text <;> rfl

theorem wordsTried (c : Calling) (words : List (Mark × Text)) (text : Text) :
    Agree (c.tried (words.map wordParser) (.str text))
      (.ret (firstWord text (words.map Prod.snd))) := by
  induction words with
  | nil => exact .refl _
  | cons word words ih =>
    refine ((wordAgrees c word text).head _).trans ?_
    rw [Running.retBind]
    simp only [firstWord, List.map_cons, List.find?_cons]
    cases word.2.isPrefixOf text with
    | true => exact .refl _
    | false => exact ih

/-- Alternatives in a list give the first success, and what they are built from one after the other
they give as alternatives of each other. -/
theorem choiceIsFirstSuccess {c : Calling} {ps qs : List Value}
    (parsers : ∀ p ∈ ps ++ qs, p.isParser = true) (outcomes : ∀ p ∈ ps ++ qs, c.GivesOutcomes p) :
    (∀ w, ∃ a w', choosing ps w = (.done a, w')) ∧
    (∀ a, Makes (choosing ps) a → ∀ x, c.FirstSuccess ps x a) ∧
    (∀ b d, Makes (choosing ps) b → Makes (choosing qs) d →
      (∀ w, ∃ e w', either b d w = (.done e, w')) ∧
      ∀ a e, Makes (choosing (ps ++ qs)) a → Makes (either b d) e →
        ∀ x, Agree (c.called a x) (c.called e x)) ∧
    ∀ (words : List (Mark × Text)) a, Makes (choosing (words.map wordParser)) a →
      ∀ text, Agree (c.called a (.str text)) (.ret (firstWord text (words.map Prod.snd))) := by
  have former := List.forall_mem_append.mp parsers
  have latter := List.forall_mem_append.mp outcomes
  refine ⟨choosingMakes former.1, fun a made => Calling.firstSuccess former.1 latter.1 made,
    fun b d left right => ⟨eitherMakes (Calling.madeIsParser left former.1) d, ?_⟩, ?_⟩
  · exact fun a e all made => Calling.choosingAppend parsers outcomes all left right made
  · intro words a made text
    refine (Calling.choosingTried made (fun p inside => ?_) (fun p inside => ?_) _).trans
      (wordsTried c words text)
    · obtain ⟨word, -, rfl⟩ := List.mem_map.mp inside
      rfl
    · obtain ⟨word, -, rfl⟩ := List.mem_map.mp inside
      exact c.outcomesOfGive (fun _ _ _ => rfl) word.1

def tracedChar (label a : Char) : Value :=
  .parser (.made 3) (.pair (.parser (.made 1) (.trace [label])) (.parser (.made 2) (.char (.str [a]))))

def tracedChars : List Value := [tracedChar 's' 'a', tracedChar 't' 'b']

theorem secondSucceeds :
    let both : Value := .parser (.made 0) (.choice tracedChars)
    let three : Value := .parser (.made 0) (.choice (tracedChars ++ [tracedChar 'u' 'b']))
    let apart : Value := .parser (.made 0) (.choice [both, tracedChar 'u' 'b'])
    Calling.script.FirstSuccess tracedChars (.str ['b']) both ∧
    Agree (Calling.script.called three (.str ['b'])) (Calling.script.called apart (.str ['b'])) ∧
    call 5 three [.str ['b']] [] .empty =
      (.done (.success (.tuple [.none, .str ['b']]) (.str [])),
        ⟨#[], #[.record (.passed ['s'] ['b'] false), .record (.passed ['t'] ['b'] false)], 0⟩) := by
  have outcomes : ∀ p ∈ tracedChars ++ [tracedChar 'u' 'b'], Calling.script.GivesOutcomes p := by
    intro p inside
    simp only [tracedChars, List.cons_append, List.nil_append, List.mem_cons, List.not_mem_nil,
      or_false] at inside
    rcases inside with rfl | rfl | rfl <;>
      exact Calling.script.outcomesOfGive (fun _ _ _ => rfl) (.made 3)
  obtain ⟨-, first, apart, -⟩ := choiceIsFirstSuccess (by decide) outcomes
  refine ⟨first _ ⟨.empty, _, rfl⟩ _, ?_, by cbv⟩
  exact (apart _ _ ⟨.empty, _, rfl⟩ ⟨.empty, _, rfl⟩).2 _ _ ⟨.empty, _, rfl⟩ ⟨.empty, _, rfl⟩ _

end ParseKit.Script
