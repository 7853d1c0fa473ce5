import Mathlib.Data.List.Forall2
import ParseKit.Proofs.Sequencing

/-! Words. A word is read at once, and it makes no difference whether it is read in parts, character
by character or as what alternatives have in common and then the rest of them. Main statement: these
parsers agree on every text. -/
namespace ParseKit.Script

/-- The parser succeeds on the texts that begin with the word, and with nothing else than that. It
fails on all other texts. -/
structure Spells (c : Calling) (word : Text) (q : Value) : Prop where
  succeeds : ∀ rest,
    Agree (c.called q (.str (word ++ rest))) (.ret (.success (.str word) (.str rest)))
  fails : ∀ text, ¬ word <+: text → Agree (c.called q (.str text)) (.ret .failure)

namespace Spells
variable {c : Calling} {word : Text} {q : Value}

theorem agrees {r : Value} (first : Spells c word q) (second : Spells c word r) (text : Text) :
    Agree (c.called q (.str text)) (c.called r (.str text)) := by
  by_cases begins : word <+: text
  · obtain ⟨rest, rfl⟩ := begins
    exact (first.succeeds rest).trans (second.succeeds rest).symm
  · exact (first.fails text begins).trans (second.fails text begins).symm

theorem taken (spells : Spells c word q) (rest : Text) :
    Agree (c.taken q (.str (word ++ rest))) (.ret (.success (.str word) (.str rest))) :=
  (spells.succeeds rest).head _

theorem takenFails (spells : Spells c word q) {text : Text} (other : ¬ word <+: text) :
    Agree (c.taken q (.str text)) (.ret .failure) := (spells.fails text other).head _

end Spells

section
variable (c : Calling)

theorem wordSpells (word : Mark × Text) : Spells c word.2 (wordParser word) where
  succeeds rest := by
    have agree := wordAgrees c word (word.2 ++ rest)
    simpa using agree
  fails text other := by
    have agree := wordAgrees c word text
    rwa [if_neg (by simpa using other)] at agree

def letterParser (letter : Mark × Char) : Value := .parser letter.1 (.char (.str [letter.2]))

theorem letterAgrees (letter : Mark × Char) (text : Text) :
    Agree (c.called (letterParser letter) (.str text))
      (.ret (if [letter.2].isPrefixOf text then
        .success (.str [letter.2]) (.str (text.drop 1)) else .failure)) := by
  refine .later fun limit => (c.applies limit letter.1 _ _).trans ?_
  cases text with
  | nil => rfl
  | cons d text =>
    simp only [Grammar.applyWith, give, charEqual, reading, Value.characters, Parser.oneOf,
      Parser.sat, Parser.filterM, Parser.bind, Parser.item, List.filterMap_cons]
    by_cases same : letter.2 = d
    · simp [same]
      rfl
    · simp [same, Ne.symm same]
      rfl

theorem letterSpells (letter : Mark × Char) : Spells c [letter.2] (letterParser letter) where
  succeeds rest := by
    have agree := letterAgrees c letter (letter.2 :: rest)
    simpa using agree
  fails text other := by
    have agree := letterAgrees c letter text
    rwa [if_neg (by simpa using other)] at agree

theorem inTurnSpells {words : List Text} {qs : List Value} (each : List.Forall₂ (Spells c) words qs)
    (text : Text) :
    (∀ rest, text = words.flatten ++ rest →
      Agree (c.inTurn qs (.str text)) (.ret (.success (words.map .str) (.str rest)))) ∧
    (¬ words.flatten <+: text → Agree (c.inTurn qs (.str text)) (.ret .failure)) := by
  induction each generalizing text with
  | nil =>
    refine ⟨?_, fun other => absurd (List.nil_prefix) other⟩
    rintro rest rfl
    exact .refl _
  | @cons word q words qs spells others ih =>
    refine ⟨?_, fun other => ?_⟩
    · rintro rest rfl
      rw [List.flatten_cons, List.append_assoc]
      refine ((spells.taken _).head _).trans ?_
      exact ((ih (words.flatten ++ rest)).1 rest rfl).head _
    · by_cases begins : word <+: text
      · obtain ⟨rest, rfl⟩ := begins
        refine ((spells.taken rest).head _).trans ?_
        refine ((ih rest).2 fun more => other ?_).head _
        rw [List.flatten_cons]
        exact (List.prefix_append_right_inj word).mpr more
      · exact (spells.takenFails begins).head _

theorem plainText : Value.plain ∘ Value.str = id := funext fun _ => rfl

theorem sequenceSpells {words : List Text} {qs : List Value}
    (each : List.Forall₂ (Spells c) words qs) (mark : Mark) :
    Spells c words.flatten (.parser mark (.sequenceText qs)) where
  succeeds rest := by
    refine (c.sequenceTextAgrees mark qs _).trans ?_
    refine (((inTurnSpells c each _).1 rest rfl).head _).trans ?_
    rw [Running.retBind, Calling.joiningTexts (by simp [Value.IsText])]
    simp only [joined, List.map_map, plainText, List.map_id]
    exact .refl _
  fails text other := by
    refine (c.sequenceTextAgrees mark qs _).trans ?_
    exact ((inTurnSpells c each text).2 other).head _

theorem lettersSpell (letters : List (Mark × Char)) (mark : Mark) :
    Spells c (letters.map Prod.snd) (.parser mark (.sequenceText (letters.map letterParser))) := by
  have each : List.Forall₂ (Spells c) (letters.map fun l => [l.2]) (letters.map letterParser) := by
    simp [List.forall₂_map_left_iff, List.forall₂_map_right_iff, List.forall₂_same, letterSpells]
  have same : (letters.map fun l => [l.2]).flatten = letters.map Prod.snd := by
    simp [← List.flatMap_def, ← List.map_eq_flatMap]
  exact same ▸ sequenceSpells c each mark

theorem twoSpell (first second : Mark × Text) (mark : Mark) :
    Spells c (first.2 ++ second.2)
      (.parser mark (.sequenceText [wordParser first, wordParser second])) := by
  have each : List.Forall₂ (Spells c) [first.2, second.2] [wordParser first, wordParser second] :=
    .cons (wordSpells c first) (.cons (wordSpells c second) .nil)
  simpa using sequenceSpells c each mark

theorem wordsChosen {words : List (Mark × Text)} {a : Value}
    (made : Makes (choosing (words.map wordParser)) a) (text : Text) :
    Agree (c.called a (.str text)) (.ret (firstWord text (words.map Prod.snd))) := by
  refine (Calling.choosingTried made (fun p inside => ?_) (fun p inside => ?_) _).trans
    (wordsTried c words text)
  · obtain ⟨word, -, rfl⟩ := List.mem_map.mp inside
    rfl
  · obtain ⟨word, -, rfl⟩ := List.mem_map.mp inside
    exact c.outcomesOfGive (fun _ _ _ => rfl) word.1

end

def inFront (front : Text) : Value → Value
  | .success (.str word) rest => .success (.str (front ++ word)) rest
  | r => r

theorem frontShared (front word rest : Text) :
    (front ++ word).isPrefixOf (front ++ rest) = word.isPrefixOf rest := by
  rw [Bool.eq_iff_iff, List.isPrefixOf_iff_prefix, List.isPrefixOf_iff_prefix]
  exact List.prefix_append_right_inj front

theorem firstBehind (front rest : Text) (words : List Text) :
    firstWord (front ++ rest) (words.map (front ++ ·)) = inFront front (firstWord rest words) := by
  induction words with
  | nil => rfl
  | cons word words ih =>
    simp only [firstWord, List.map_cons, List.find?_cons, frontShared] at ih ⊢
    cases word.isPrefixOf rest with
    | true => simp [inFront]
    | false => exact ih

theorem firstElsewhere {front text : Text} (other : ¬ front <+: text) (words : List Text) :
    firstWord text (words.map (front ++ ·)) = .failure := by
  have none : (words.map (front ++ ·)).find? (·.isPrefixOf text) = none := by
    simp only [List.find?_eq_none, List.mem_map, List.isPrefixOf_iff_prefix]
    rintro _ ⟨word, -, rfl⟩ begins
    exact other ((List.prefix_append front word).trans begins)
  rw [firstWord, none]

theorem firstIsOutcome (text : Text) (words : List Text) :
    firstWord text words = .failure ∨
      ∃ word rest, firstWord text words = .success (.str word) (.str rest) := by
  unfold firstWord
  split
  · exact .inl rfl
  · exact .inr ⟨_, _, rfl⟩

section
variable (c : Calling)

theorem commonFront {front : Mark × Text} {words whole : List (Mark × Text)} {a b : Value}
    (same : whole.map Prod.snd = (words.map Prod.snd).map (front.2 ++ ·))
    (first : Makes (choosing (whole.map wordParser)) a)
    (second : Makes (choosing (words.map wordParser)) b) (mark : Mark) (text : Text) :
    Agree (c.called a (.str text))
      (c.called (.parser mark (.sequenceText [wordParser front, b])) (.str text)) := by
  refine (wordsChosen c first text).trans (.symm ((c.sequenceTextAgrees mark _ _).trans ?_))
  rw [same, Calling.inTurn]
  by_cases begins : front.2 <+: text
  · obtain ⟨rest, rfl⟩ := begins
    refine ((((wordSpells c front).taken rest).head _).head _).trans ?_
    rw [Running.retBind, onward, firstBehind]
    have chosen : Agree (c.taken b (.str rest)) _ := (wordsChosen c second rest).head _
    rcases firstIsOutcome rest (words.map Prod.snd) with fails | ⟨word, left, succeeds⟩
    · rw [fails] at chosen ⊢
      exact ((chosen.head _).head _).head _
    · rw [succeeds] at chosen ⊢
      refine (((chosen.head _).head _).head _).trans ?_
      change Agree (Calling.joining (.success [.str front.2, .str word] (.str left))) _
      rw [Calling.joiningTexts (by simp [Value.IsText])]
      simp [joined, Value.plain, inFront, Agree.refl]
  · rw [firstElsewhere begins]
    exact (((wordSpells c front).takenFails begins).head _).head _

end

/-- A word is its characters one after another and the words that it is made of, and a choice of
words may be put behind what they have in common. -/
theorem wordsAreRead (c : Calling) :
    (∀ (letters : List (Mark × Char)) i mark,
      Spells c (letters.map Prod.snd) (wordParser (i, letters.map Prod.snd)) ∧
      Spells c (letters.map Prod.snd) (.parser mark (.sequenceText (letters.map letterParser))) ∧
      ∀ text, Agree (c.called (wordParser (i, letters.map Prod.snd)) (.str text))
        (c.called (.parser mark (.sequenceText (letters.map letterParser))) (.str text))) ∧
    (∀ i j k s t mark text, Agree (c.called (wordParser (i, s ++ t)) (.str text))
      (c.called (.parser mark (.sequenceText [wordParser (j, s), wordParser (k, t)]))
        (.str text))) ∧
    ∀ front (words whole : List (Mark × Text)),
      whole.map Prod.snd = (words.map Prod.snd).map (front.2 ++ ·) →
      (∀ w, ∃ a w', choosing (whole.map wordParser) w = (.done a, w')) ∧
      (∀ w, ∃ b w', choosing (words.map wordParser) w = (.done b, w')) ∧
      ∀ a b, Makes (choosing (whole.map wordParser)) a → Makes (choosing (words.map wordParser)) b →
        ∀ mark text, Agree (c.called a (.str text))
          (c.called (.parser mark (.sequenceText [wordParser front, b])) (.str text)) := by
  refine ⟨fun letters i mark => ?_, fun i j k s t mark => ?_, fun front words whole same => ?_⟩
  · have atOnce := wordSpells c (i, letters.map Prod.snd)
    have inTurn := lettersSpell c letters mark
    exact ⟨atOnce, inTurn, atOnce.agrees inTurn⟩
  · exact (wordSpells c (i, s ++ t)).agrees (twoSpell c (j, s) (k, t) mark)
  · have parsers (words : List (Mark × Text)) : ∀ p ∈ words.map wordParser, p.isParser = true := by
      rintro _ inside
      obtain ⟨word, -, rfl⟩ := List.mem_map.mp inside
      rfl
    exact ⟨choosingMakes (parsers whole), choosingMakes (parsers words),
      fun _ _ first second => commonFront c same first second⟩

theorem secondBehindFront :
    let both : Value := .parser (.made 0) (.choice
      [wordParser (.made 1, ['r', 'e', 't']), wordParser (.made 2, ['r', 'e', 'd', 'o'])])
    let rests : Value := .parser (.made 0) (.choice
      [wordParser (.made 3, ['t']), wordParser (.made 4, ['d', 'o'])])
    let apart : Value := .parser (.made 6) (.sequenceText [wordParser (.made 5, ['r', 'e']), rests])
    call 4 both [.str ['r', 'e', 'd', 'o', 's']] [] .empty =
      (.done (.success (.str ['r', 'e', 'd', 'o']) (.str ['s'])), .empty) ∧
    Agree (Calling.script.called both (.str ['r', 'e', 'd', 'o', 's']))
      (Calling.script.called apart (.str ['r', 'e', 'd', 'o', 's'])) := by
  obtain ⟨-, -, apart⟩ := wordsAreRead Calling.script
  refine ⟨rfl, ?_⟩
  have factored := apart (.made 5, ['r', 'e']) [(.made 3, ['t']), (.made 4, ['d', 'o'])]
    [(.made 1, ['r', 'e', 't']), (.made 2, ['r', 'e', 'd', 'o'])] rfl
  exact factored.2.2 _ _ ⟨.empty, _, rfl⟩ ⟨.empty, _, rfl⟩ (.made 6) _

end ParseKit.Script
