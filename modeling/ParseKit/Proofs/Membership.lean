import ParseKit.Proofs.Words

/-! Membership. A parser of one character that is among some values is built from all of them, but
only the characters among them count, in any order and number. Main statement: it is a choice of the
characters, and with the parser of all others it takes each character once. -/
namespace ParseKit.Script

def making (op : Unary) (v : Value) : Run Value := do
  Run.make (← Eff.ofExcept (op.build v))

def charParser (word : Mark × Text) : Value := .parser word.1 (.char (.str word.2))

def heading (test : Char → Bool) : Text → Value
  | [] => .failure
  | d :: text => if test d then .success (.str [d]) (.str text) else .failure

theorem charactersContain (words : List Text) (d : Char) :
    (Value.characters (words.map .str)).contains d = decide ([d] ∈ words) := by
  rw [Bool.eq_iff_iff, decide_eq_true_iff, List.contains_iff_mem, Value.characters,
    List.mem_filterMap]
  constructor
  · rintro ⟨v, inside, found⟩
    obtain ⟨word, member, rfl⟩ := List.mem_map.mp inside
    split at found
    · next same =>
      cases same
      cases found
      exact member
    · cases found
  · intro member
    exact ⟨.str [d], List.mem_map_of_mem member, rfl⟩

theorem textsHashed (words : List Text) :
    (words.map Value.str).mapM Value.hashed = .ok (words.map .str) := by
  induction words with
  | nil => rfl
  | cons word words ih =>
    rw [List.map_cons, List.mapM_cons, ih]
    rfl

theorem headingGiven (test : Char → Bool) (others : Parser Value Store Value) (text : Text) :
    give (reading (Parser.sat test) .ofChar others) (.str text) = pure (heading test text) := by
  cases text with
  | nil => rfl
  | cons d text =>
    have judged : (Parser.sat test (d :: text) : Run _) = (pure (test d) >>= fun passes =>
      if passes then Parser.ret d text else Parser.fail text) := rfl
    rw [give, reading, judged, heading]
    cases test d <;> rfl

section
variable (c : Calling) (mark : Mark) (words : List Text) (text : Text)

theorem oneOfHeading : Agree (c.called (.parser mark (.oneOf (words.map .str))) (.str text))
    (.ret (heading (fun d => decide ([d] ∈ words)) text)) := by
  refine .later fun limit => (c.applies limit mark _ _).trans ((headingGiven _ _ text).trans ?_)
  exact congrArg (fun test => pure (heading test text)) (funext (charactersContain words))

theorem noneOfHeading : Agree (c.called (.parser mark (.noneOf (words.map .str))) (.str text))
    (.ret (heading (fun d => !decide ([d] ∈ words)) text)) := by
  refine .later fun limit => (c.applies limit mark _ _).trans ((headingGiven _ _ text).trans ?_)
  exact congrArg (fun test => (pure (heading (fun d => !test d) text) : Run Value))
    (funext (charactersContain words))

theorem charHeading (word : Mark × Text) : Agree (c.called (charParser word) (.str text))
    (.ret (heading (fun d => decide ([d] = word.2)) text)) := by
  refine .later fun limit => (c.applies limit word.1 _ _).trans ((headingGiven _ _ text).trans ?_)
  have same (d : Char) : _ = decide ([d] = word.2) :=
    (charactersContain [word.2] d).trans (by simp only [List.mem_singleton])
  exact congrArg (fun test => pure (heading test text)) (funext same)

theorem itemHeading : Agree (c.called Atom.item.value (.str text))
    (.ret (heading (fun _ => true) text)) := by
  refine .later fun limit => (c.applies limit _ _ _).trans ?_
  cases text <;> rfl

end

theorem charsTried (c : Calling) (letters : List (Mark × Text)) (text : Text) :
    Agree (c.tried (letters.map charParser) (.str text))
      (.ret (heading (fun d => decide ([d] ∈ letters.map Prod.snd)) text)) := by
  induction letters with
  | nil => cases text <;> exact .refl _
  | cons letter letters ih =>
    refine ((charHeading c text letter).head _).trans ?_
    rw [Running.retBind]
    cases text with
    | nil => exact ih
    | cons d text =>
      by_cases same : [d] = letter.2
      · simp [heading, same, Value.truth, Agree.refl]
      · simp only [heading, same, List.map_cons, List.mem_cons, false_or]
        exact ih

theorem makeMade {g : Grammar} {p : Value} (made : Makes (Run.make (.parser g)) p) :
    ∃ m, p = .parser m g := by
  obtain ⟨w, w', made⟩ := made
  cases made
  exact ⟨_, rfl⟩

section
variable {cs : Value} {words : List Text} (elements : cs.elements = .ok (words.map .str))
include elements

theorem membersOf : cs.members = .ok (words.map .str) := by
  rw [Value.members, elements]
  exact textsHashed words

theorem oneOfBuilt : making .oneOf cs = Run.make (.parser (.oneOf (words.map .str))) := by
  rw [making, Unary.build, membersOf elements]
  rfl

theorem noneOfBuilt : making .noneOf cs = Run.make (.parser (.noneOf (words.map .str))) := by
  rw [making, Unary.build, membersOf elements]
  rfl

end

structure Parting (c : Calling) (words : List Text) (p q : Value) : Prop where
  item : ∀ d text, Agree (c.called Atom.item.value (.str (d :: text)))
    (.ret (.success (.str [d]) (.str text)))
  there : ∀ d text, [d] ∈ words →
    Agree (c.called p (.str (d :: text))) (c.called Atom.item.value (.str (d :: text))) ∧
    Agree (c.called q (.str (d :: text))) (.ret .failure)
  absent : ∀ d text, [d] ∉ words →
    Agree (c.called p (.str (d :: text))) (.ret .failure) ∧
    Agree (c.called q (.str (d :: text))) (c.called Atom.item.value (.str (d :: text)))
  nothing : Agree (c.called p (.str [])) (.ret .failure) ∧
    Agree (c.called q (.str [])) (.ret .failure)
  unites : ∀ w, ∃ e w', either p q w = (.done e, w')
  either : ∀ e, Makes (either p q) e → ∀ text,
    Agree (c.called e (.str text)) (c.called Atom.item.value (.str text))

section
variable (c : Calling)

theorem memberOrNot (words : List Text) (i j : Mark) :
    Parting c words (.parser i (.oneOf (words.map .str)))
      (.parser j (.noneOf (words.map .str))) := by
  have oneOf := oneOfHeading c i words
  have noneOf := noneOfHeading c j words
  have item := itemHeading c
  refine ⟨fun d text => item (d :: text), fun d text member => ?_, fun d text other => ?_,
    ⟨oneOf [], noneOf []⟩, eitherMakes rfl _, fun e made text => ?_⟩
  · have taken := oneOf (d :: text)
    have left := noneOf (d :: text)
    simp only [heading, member] at taken left
    exact ⟨taken.trans (item (d :: text)).symm, left⟩
  · have left := oneOf (d :: text)
    have taken := noneOf (d :: text)
    simp only [heading, other] at taken left
    exact ⟨left, taken.trans (item (d :: text)).symm⟩
  · obtain ⟨w, w', made⟩ := made
    cases made
    refine (c.choiceAgrees _ _ _ _).trans
      ((c.alternativeAgrees (oneOf text) (noneOf text)).trans ?_)
    refine .trans ?_ (item text).symm
    rw [Running.retBind]
    cases text with
    | nil => exact .refl _
    | cons d text =>
      by_cases member : [d] ∈ words <;> simp [heading, member, Value.truth, Agree.refl]

end

/-- A test of membership is a choice of characters, in which only words of one character count and
each of them once. What it does not take a test of absence takes, so that between them they take any
character. -/
theorem membershipIsChoice (c : Calling) {cs : Value} {letters : List (Mark × Text)}
    (elements : cs.elements = .ok ((letters.map Prod.snd).map .str)) :
    (∀ w, (∃ p w', making .oneOf cs w = (.done p, w')) ∧
      (∃ q w', making .noneOf cs w = (.done q, w')) ∧
      ∃ a w', choosing (letters.map charParser) w = (.done a, w')) ∧
    ∀ p, Makes (making .oneOf cs) p →
      (∀ a, Makes (choosing (letters.map charParser)) a → ∀ text,
        Agree (c.called p (.str text)) (c.called a (.str text))) ∧
      (∀ cs' (words : List Text) p', cs'.elements = .ok (words.map Value.str) →
        Makes (making .oneOf cs') p' → (∀ d, [d] ∈ words ↔ [d] ∈ letters.map Prod.snd) → ∀ text,
          Agree (c.called p' (.str text)) (c.called p (.str text))) ∧
      ∀ q, Makes (making .noneOf cs) q → Parting c (letters.map Prod.snd) p q := by
  have parsers : ∀ p ∈ letters.map charParser, p.isParser = true := by
    rintro _ inside
    obtain ⟨letter, -, rfl⟩ := List.mem_map.mp inside
    rfl
  have outcomes : ∀ p ∈ letters.map charParser, c.GivesOutcomes p := by
    rintro _ inside
    obtain ⟨letter, -, rfl⟩ := List.mem_map.mp inside
    exact charOutcomes c letter.1 _
  rw [oneOfBuilt elements, noneOfBuilt elements]
  refine ⟨fun w => ⟨⟨_, _, rfl⟩, ⟨_, _, rfl⟩, choosingMakes parsers w⟩, fun p made => ?_⟩
  obtain ⟨i, rfl⟩ := makeMade made
  have oneOf := oneOfHeading c i (letters.map Prod.snd)
  refine ⟨fun a made text => ?_, fun cs' words p' elements' made' same text => ?_,
    fun q made' => ?_⟩
  · exact (oneOf text).trans ((Calling.choosingTried made parsers outcomes _).trans
      (charsTried c letters text)).symm
  · rw [oneOfBuilt elements'] at made'
    obtain ⟨j, rfl⟩ := makeMade made'
    have oneOf' := oneOfHeading c j words text
    simp only [same] at oneOf'
    exact oneOf'.trans (oneOf text).symm
  · obtain ⟨j, rfl⟩ := makeMade made'
    exact memberOrNot c (letters.map Prod.snd) i j

def oddWords : List (Mark × Text) :=
  [(.made 1, ['a', 'b']), (.made 2, []), (.made 3, ['a']), (.made 4, ['a'])]

theorem onlyCharactersCount :
    let words : List Value := [.str ['a', 'b'], .str [], .str ['a'], .str ['a']]
    let p : Value := .parser (.made 0) (.oneOf words)
    let q : Value := .parser (.made 0) (.noneOf words)
    (∀ text, Agree (Calling.script.called p (.str text)) (Calling.script.called
      (.parser (.made 0) (.choice (oddWords.map charParser))) (.str text))) ∧
    (∀ text, Agree (Calling.script.called (.parser (.made 0) (.oneOf [.str ['a']])) (.str text))
      (Calling.script.called p (.str text))) ∧
    Parting Calling.script (oddWords.map Prod.snd) p q := by
  intro words p q
  have elements : (Value.list words).elements = .ok ((oddWords.map Prod.snd).map .str) := rfl
  obtain ⟨chosen, listed, parted⟩ :=
    (membershipIsChoice Calling.script elements).2 p ⟨.empty, _, rfl⟩
  refine ⟨chosen _ ⟨.empty, _, rfl⟩, ?_, parted q ⟨.empty, _, rfl⟩⟩
  exact listed (.str ['a']) [['a']] _ rfl ⟨.empty, _, rfl⟩ (by simp [oddWords])

end ParseKit.Script
