import ParseKit.Proofs.History.Evaluation
import ParseKit.Proofs.Simulation
import ParseKit.Proofs.Watching

/-! Faults pass through. A watched run is followed by one that is stopped at the first fault, with
the same values up to there. Main statement: if an application raises then a callback has raised
that very fault, or a parser one of its own, and the run has done nothing since; if it answers
then with an outcome, and nothing in it has raised. -/
namespace ParseKit.Script
open ParseKit.Parser (Leaves)

/- What a stopped run has come to when the run it follows ends: the same answer, or the first fault,
with the store as it is in the end. -/
inductive Stops {α β : Type} (stop : Happening → Fault → Store → Store) (alike : α → β → Prop) :
    Exit α × Store → Exit β × Store → Prop where
  | short (w : Store) (q : Exit β × Store) : Stops stop alike (.exhausted, w) q
  | answered {a : α} {b : β} (w : Store) (same : alike a b) :
      Stops stop alike (.done a, w) (.done b, w)
  | stopped {h : Happening} {fault : Fault} (w : Store) (source : h.Raises fault) :
      Stops stop alike (.raised (h.passed fault), w) (.exhausted, stop h fault w)

theorem Stops.unchanged {α β : Type} {stop : Happening → Fault → Store → Store}
    {alike : α → β → Prop} {h : Happening} {fault : Fault} (same : h.passed fault = fault) (w : Store)
    (source : h.Raises fault) :
    Stops stop alike (.raised fault, w) (.exhausted, stop h fault w) := by
  have stopped : Stops stop alike (.raised (h.passed fault), w) (.exhausted, stop h fault w) :=
    .stopped w source
  rwa [same] at stopped

theorem Stops.ofRaised {α β : Type} {stop : Happening → Fault → Store → Store}
    {alike : α → β → Prop} {fault : Fault} {w : Store} {q : Exit β × Store}
    (stops : Stops stop alike (.raised fault, w) q) : ∃ (h : Happening) (first : Fault),
      fault = h.passed first ∧ h.Raises first ∧ q = (.exhausted, stop h first w) := by
  generalize same : ((.raised fault, w) : Exit α × Store) = p at stops
  cases stops with
  | stopped w source =>
    cases same
    exact ⟨_, _, rfl, source, rfl⟩
  | _ => cases same

inductive Passing {α β : Type} (stop : Happening → Fault → Store → Store) (alike : α → β → Prop) :
    Exit α × Store → Exit β × Store → Prop where
  | stops {p : Exit α × Store} {q : Exit β × Store} (ends : Stops stop alike p q) :
      Passing stop alike p q
  | own {fault : Fault} (w : Store) (own : isOwn fault = true) :
      Passing stop alike (.raised fault, w) (.raised fault, w)

def passing (stop : Happening → Fault → Store → Store) : Simulation OneWorld Store Store where
  Follows _ L x y := ∀ w, Passing stop (L.holds .only) (x w) (y 0 w)
  grow _ follows := follows
  done alike w := .stops (.answered w alike)
  short w := .stops (.short w _)
  bind {_ _ _ _ _ L M x y f g} head tail w := by
    have first := head w
    rcases left : x w with ⟨exit, v⟩
    rcases right : y 0 w with ⟨exit', v'⟩
    rw [left, right] at first
    dsimp only
    cases first with
    | own _ own =>
      rw [Eff.bindOfRaised left, Eff.bindOfRaised right]
      exact .own _ own
    | stops ends =>
      cases ends with
      | short =>
        rw [Eff.bindOfExhausted left]
        exact .stops (.short _ _)
      | answered _ same =>
        rw [Eff.bindOfDone left, Eff.bindOfDone right]
        exact tail .only _ _ le_rfl same _
      | stopped _ source =>
        rw [Eff.bindOfRaised left, Eff.bindOfExhausted right]
        exact .stops (.stopped _ source)

abbrev Pass (stop : Happening → Fault → Store → Store) {α β : Type} (L : Likeness OneWorld α β)
    (x : Run α) (y : Run β) : Prop := (passing stop).Follows .only L x fun _ => y

def Value.OnText (x : Value) : Prop := ∃ text, x = .str text

def Value.Answers : Value → Prop
  | failure => True
  | success _ rest => rest.OnText
  | _ => False

def texts : Likeness OneWorld Value Value := .such Value.OnText

abbrev Passes (stop : Happening → Fault → Store → Store) {α : Type}
    (p q : Parser Value Store α) : Prop :=
  (passing stop).Parses texts .only .same p fun _ => q

def AppliersPass (stop : Happening → Fault → Store → Store) (a b : Applier) : Prop :=
  ∀ p x, x.OnText → Pass stop (.such Value.Answers) (a p x) (b p x)

def CallersPass (stop : Happening → Fault → Store → Store) (c d : Caller) : Prop :=
  ∀ f args, Pass stop .same (c f args []) (d f args [])

section
variable {stop : Happening → Fault → Store → Store} {α : Type}

theorem quietly {x : Run α} {post : α → Prop} (ends : x.Ensures post) {L : Likeness OneWorld α α}
    (alike : ∀ a, post a → L.holds .only a a) : Pass stop L x x := by
  intro w
  show Passing stop (L.holds .only) (x w) (x w)
  rcases run : x w with ⟨exit, v⟩
  cases exit with
  | exhausted => exact .stops (.short _ _)
  | done a =>
    obtain ⟨b, same, holds⟩ := ends w _ v run nofun
    cases same
    exact .stops (.answered _ (alike a holds))
  | raised fault =>
    obtain ⟨b, same, _⟩ := ends w _ v run nofun
    cases same

theorem ensuredPass {p : Parser Value Store α}
    (ends : ∀ text, (p (.str text)).Ensures fun o => o.Within textSuffix (.str text)) :
    Passes stop p p := by
  rintro _ x _ _ ⟨rfl, text, rfl⟩
  refine quietly (ends text) fun o inside => ?_
  cases o with
  | failure => trivial
  | success a rest =>
    obtain ⟨left, rfl, _⟩ := inside text rfl
    exact ⟨rfl, rfl, left, rfl⟩

theorem answersPass {p : Parser Value Store α} (leaves : Leaves textSuffix p)
    (answers : ∀ text, ∃ o, p (.str text) = pure o) : Passes stop p p := by
  refine ensuredPass fun text => ?_
  obtain ⟨o, same⟩ := answers text
  rw [same]
  exact .done (leaves (.str text) .empty o .empty (by rw [same]; rfl))

theorem readingAnswers {onTexts : Parser Text Store α} {text : Text}
    (answers : ∃ o, onTexts text = pure o) {value : α → Value}
    {onOthers : Parser Value Store Value} :
    ∃ o, reading onTexts value onOthers (.str text) = pure o := by
  obtain ⟨o, same⟩ := answers
  simp only [reading, same]
  cases o with
  | failure => exact ⟨_, rfl⟩
  | success a rest => exact ⟨_, rfl⟩

theorem satPasses (test : Char → Bool) (onOthers : Parser Value Store Value) :
    Passes stop (reading (Parser.sat test) .ofChar onOthers)
      (reading (Parser.sat test) .ofChar onOthers) :=
  answersPass (readingLeaves (.sat test) _ _) fun text =>
    readingAnswers (readsAnswers (Reads.sat test text))

theorem itemPasses : Passes stop item item := by
  refine answersPass (readingLeaves .item _ _) fun text => readingAnswers ?_
  cases text with
  | nil => exact ⟨_, rfl⟩
  | cons c rest => exact ⟨_, rfl⟩

theorem leafPasses (limit : Nat) (l : Leaf) : Passes stop (l.parser limit) (l.parser limit) := by
  cases l with
  | item => exact itemPasses
  | fail => exact .fail
  | eof =>
    refine answersPass (readingLeaves .eof _ _) fun text => ?_
    cases text with
    | nil => exact ⟨_, rfl⟩
    | cons c rest => exact ⟨_, rfl⟩
  | num =>
    have answers : ∀ text, ∃ o, (num limit (.str text) : Run _) = pure o := fun text =>
      readingAnswers (readsAnswers (numReads text))
    exact answersPass (readingLeaves .num _ _) answers
  | ofClass k => exact satPasses _ _

theorem wordPasses (word : Text) : Passes stop (string (.str word)) (string (.str word)) := by
  refine answersPass (stringLeaves _) fun text => ?_
  refine (readingAnswers ?_ : ∃ o, reading (Parser.string word) .str Parser.fail (.str text) = pure o)
  unfold Parser.string
  cases text.afterWord? word with
  | none => exact ⟨_, rfl⟩
  | some rest => exact ⟨_, rfl⟩

theorem tracePasses (label : Text) : Passes stop (trace label) (trace label) := by
  refine ensuredPass fun text => ?_
  have traced : (Parser.trace label text : Run _).Ensures fun o => o = .success () text :=
    (Eff.Ensures.modify _).bind fun _ _ => .done rfl
  refine traced.bind fun o same => ?_
  cases same
  exact .done (textSuffix.refl (.str text))

theorem joinPasses (vs : List Value) :
    Pass stop .same (joinTexts vs) (joinTexts vs) := by
  unfold joinTexts
  split
  · exact (passing stop).done rfl
  · exact fun w => .own w rfl

theorem collectPasses (collect : Collect) (vs : List Value) :
    Pass stop .same (collect.apply vs) (collect.apply vs) := by
  cases collect with
  | joined => exact joinPasses vs
  | _ => exact fun w => .stops (.answered w rfl)

theorem givePasses {p q : Parser Value Store Value} (both : Passes stop p q) {x : Value}
    (input : x.OnText) : Pass stop (.such Value.Answers) (give p x) (give q x) := by
  refine (passing stop).bind (both .only x x le_rfl ⟨rfl, input⟩) fun _ o o' _ same => ?_
  cases o <;> cases o' <;> try exact same.elim
  · exact fun w => .stops (.answered w ⟨rfl, trivial⟩)
  · obtain ⟨rfl, rfl, rest⟩ := same
    exact fun w => .stops (.answered w ⟨rfl, rest⟩)

section
variable {a b : Applier} (applies : AppliersPass stop a b)
include applies

theorem readByPasses {view : Value → Except Fault (Outcome Value Value)}
    (failing : view .failure = .ok .failure)
    (succeeding : ∀ a rest, view (.success a rest) = .ok (.success a rest)) (p : Value) :
    Passes stop (readBy a view p) (readBy b view p) := by
  rintro _ x _ _ ⟨rfl, input⟩
  refine (passing stop).bind (applies p x input) fun _ r r' _ same => ?_
  obtain ⟨rfl, answers⟩ := same
  cases r with
  | failure =>
    rw [failing]
    exact (passing stop).done trivial
  | success v rest =>
    rw [succeeding]
    exact (passing stop).done ⟨rfl, rfl, answers⟩
  | _ => exact answers.elim

theorem readPasses (p : Value) : Passes stop (read a p) (read b p) :=
  readByPasses applies rfl (fun _ _ => rfl) p

theorem readRestPasses (p : Value) : Passes stop (readRest a p) (readRest b p) :=
  readByPasses applies rfl (fun _ _ => rfl) p

theorem readPartsPasses (p : Value) : Passes stop (readParts a p) (readParts b p) :=
  readByPasses applies rfl (fun _ _ => rfl) p

theorem readWithPasses (operation : String) {p : Value} (parser : p.isParser = true) :
    Passes stop (readWith a operation p) (readWith b operation p) := by
  cases p with
  | parser mark g => exact readPasses applies (.parser mark g)
  | _ => cases parser

theorem separatorPasses (p : Value) {sep : Value} (parser : sep.isParser = true) :
    Passes stop (separator a p sep) (separator b p sep) := by
  cases sep with
  | parser mark g => exact readPasses applies (.parser mark g)
  | _ => cases parser

theorem firstOfPasses (ps : List Value) {x : Value} (input : x.OnText) :
    Pass stop (.such Value.Answers) (firstOf a ps x) (firstOf b ps x) := by
  match ps with
  | [] => exact (passing stop).done ⟨rfl, trivial⟩
  | [p] => exact applies p x input
  | p :: q :: ps =>
    refine (passing stop).bind (applies p x input) fun _ r r' _ same => ?_
    obtain ⟨rfl, answers⟩ := same
    split
    · exact (passing stop).done ⟨rfl, answers⟩
    · exact firstOfPasses (q :: ps) input

end

theorem applyWithPasses {a b : Applier} (applies : AppliersPass stop a b) {c d : Caller}
    (calls : CallersPass stop c d) (limit : Nat) {g : Grammar} (sound : g.sound = true)
    (unshared : ∀ id, g ≠ .shared id) (unblocked : ∀ env body, g ≠ .block env body)
    (unraised : ∀ fault, g ≠ .raising fault) {x : Value} (input : x.OnText) :
    Pass stop (.such Value.Answers) (g.applyWith a c limit x)
      (g.applyWith b d limit x) := by
  have reads := readPasses applies
  have rests := readRestPasses applies
  have called : ∀ f v v', v = v' →
      Pass stop .same (c f [v] []) (d f [v'] []) := by
    rintro f v _ rfl
    exact calls f [v]
  cases g with
  | leaf l => exact givePasses (leafPasses limit l) input
  | ret v => exact givePasses (.ret rfl) input
  | char v => exact givePasses (satPasses _ _) input
  | string word =>
    cases word with
    | str word => exact givePasses (wordPasses word) input
    | _ => cases sound
  | oneOf members => exact givePasses (satPasses _ _) input
  | noneOf members => exact givePasses (satPasses _ _) input
  | sat test =>
    refine givePasses (itemPasses.filterM fun _ v v' _ same => ?_) input
    refine (passing stop).bind (called test v v' same) fun _ r r' _ equal => ?_
    obtain rfl : r = r' := equal
    exact (passing stop).done rfl
  | trace label => exact givePasses (tracePasses label) input
  | bind p f =>
    refine (passing stop).bind (reads p .only x x le_rfl ⟨rfl, input⟩) fun _ o o' _ same => ?_
    cases o <;> cases o' <;> try exact same.elim
    · exact (passing stop).done ⟨rfl, trivial⟩
    · obtain ⟨value, rfl, rest⟩ := same
      refine (passing stop).bind (called f _ _ value) fun _ q q' _ equal => ?_
      obtain rfl : q = q' := equal
      exact applies q _ rest
  | map p f => exact givePasses ((reads p).mapM fun _ v v' _ same => called f v v' same) input
  | choice ps => exact firstOfPasses applies ps input
  | option default p =>
    refine (passing stop).bind (applies p x input) fun _ r r' _ same => ?_
    obtain ⟨rfl, answers⟩ := same
    split
    · exact (passing stop).done ⟨rfl, answers⟩
    · exact (passing stop).done ⟨rfl, input⟩
  | pair p q =>
    refine givePasses (((rests p).pair (reads q)).map fun _ v v' _ same => ?_) input
    obtain ⟨first, second⟩ := same
    exact congrArg₂ (fun v w => Value.tuple [v, w]) first second
  | keepRight p q =>
    refine (passing stop).bind (reads p .only x x le_rfl ⟨rfl, input⟩) fun _ o o' _ same => ?_
    cases o <;> cases o' <;> try exact same.elim
    · exact (passing stop).done ⟨rfl, trivial⟩
    · obtain ⟨_, rfl, rest⟩ := same
      exact applies q _ rest
  | keepLeft p q =>
    simp only [Grammar.sound, Bool.and_eq_true] at sound
    exact givePasses ((reads p).keepLeft (readWithPasses applies "map" sound.2)) input
  | repeated least collect p =>
    refine givePasses (((reads p).repeated (fun _ => le_rfl) least).mapM fun _ vs vs' _ same => ?_) input
    obtain rfl := Likeness.sameList same
    exact collectPasses collect vs
  | sequenceText ps =>
    have each : List.Forall₂ (fun q p => Passes stop q (read b p)) (ps.map (read a)) ps := by
      rw [List.forall₂_map_left_iff, List.forall₂_same]
      exact fun p _ => reads p
    refine givePasses (Simulation.Parses.mapM (.sequenceFrom each .nil)
      fun _ vs vs' _ same => ?_) input
    obtain rfl := Likeness.sameList same
    exact joinPasses vs
  | count k p =>
    refine givePasses (((reads p).countFrom .nil k.toNat).map fun _ vs vs' _ same => ?_) input
    obtain rfl := Likeness.sameList same
    rfl
  | between opening closing p =>
    simp only [Grammar.sound, Bool.and_eq_true] at sound
    exact givePasses ((reads opening).between (readWithPasses applies "bind" sound.1.2)
      (readWithPasses applies "bind" sound.2)) input
  | optional p => exact givePasses ((reads p).optional.map fun _ _ _ _ _ => rfl) input
  | sepBy p sep =>
    simp only [Grammar.sound, Bool.and_eq_true] at sound
    refine givePasses (((reads p).sepByWithin (separatorPasses applies p sound.2) fun _ => le_rfl).map
      fun _ vs vs' _ same => ?_) input
    obtain rfl := Likeness.sameList same
    rfl
  | sepBy1 p sep =>
    simp only [Grammar.sound, Bool.and_eq_true] at sound
    refine givePasses (((reads p).sepBy1Within (separatorPasses applies p sound.2) fun _ => le_rfl).map
      fun _ vs vs' _ same => ?_) input
    obtain rfl := Likeness.sameList same
    rfl
  | chainl1 p op =>
    refine givePasses ((readPartsPasses applies p).bind fun _ v v' _ first => ?_) input
    refine Simulation.Parses.chainAfter (reads p) (rests op)
      (fun _ i j v w v' w' _ function left right => ?_) (fun _ => le_rfl) first
    obtain rfl : i = j := function
    obtain rfl : v = w := left
    obtain rfl : v' = w' := right
    exact calls i [v, v']
  | shared id => exact absurd rfl (unshared id)
  | block env body => exact absurd rfl (unblocked env body)
  | raising fault => exact absurd rfl (unraised fault)

theorem applyWatchedOther (o : Observer) (apply : Applier) (call : Caller) (limit : Nat)
    {g : Grammar} (unshared : ∀ id, g ≠ .shared id) (unblocked : ∀ env body, g ≠ .block env body)
    (unraised : ∀ fault, g ≠ .raising fault) :
    g.applyWatched o apply call limit = g.applyWith apply (o.calling call) limit := by
  cases g with
  | shared id => exact absurd rfl (unshared id)
  | block env body => exact absurd rfl (unblocked env body)
  | raising fault => exact absurd rfl (unraised fault)
  | _ => rfl

end

section
variable (sees : Happening → Store → Store) (stop : Happening → Fault → Store → Store) {α : Type}

abbrev Observer.going : Observer := ⟨sees, none⟩

abbrev Observer.stopping : Observer := ⟨sees, some stop⟩

open Observer (going stopping)

theorem appliedStops {p v : Value} {L : Likeness OneWorld α α} {x y : Run α}
    (both : Pass stop L x y) (w : Store) :
    Stops stop (L.holds .only) ((going sees).watch (.applied p v) x w)
      ((stopping sees stop).watch (.applied p v) y w) := by
  let h := Happening.applied p v
  have inner : Passing stop (L.holds .only) (x (sees h w)) (y (sees h w)) := both (sees h w)
  have left : (going sees).watch h x w = x (sees h w) := rfl
  have right : (stopping sees stop).watch h y w =
      (y.attempt >>= stopAt stop h) (sees h w) := rfl
  rw [left, right]
  generalize first : x (sees h w) = p at inner
  generalize second : y (sees h w) = q at inner
  cases inner with
  | own v raised =>
    rw [Eff.bindOfDone (Eff.attemptOfRaised second)]
    exact .stopped (h := h) v raised
  | stops ends =>
    cases ends with
    | short v => exact .short v _
    | answered v same =>
      rw [Eff.bindOfDone (Eff.attemptOfDone second)]
      exact .answered v same
    | stopped v source =>
      rw [Eff.bindOfExhausted (Eff.attemptOfExhausted second)]
      exact .stopped v source

theorem callbackEnds (h : Happening) (x : Run α) (w : Store) :
    (∃ v, (going sees).watch h x w = (.exhausted, v)) ∨
      (∃ a v, x (sees h w) = (.done a, v) ∧ (going sees).watch h x w = (.done a, v) ∧
        (stopping sees stop).watch h x w = (.done a, v)) ∨
      ∃ fault v, x (sees h w) = (.raised fault, v) ∧
        (going sees).watch h x w = (.raised fault, v) ∧
        (stopping sees stop).watch h x w = (.exhausted, stop h fault v) := by
  have left : (going sees).watch h x w = x (sees h w) := rfl
  have right : (stopping sees stop).watch h x w =
      (x.attempt >>= stopAt stop h) (sees h w) := rfl
  rw [left, right]
  rcases run : x (sees h w) with ⟨a | fault | _, v⟩
  · exact .inr (.inl ⟨a, v, rfl, rfl, Eff.bindOfDone (Eff.attemptOfDone run)⟩)
  · exact .inr (.inr ⟨fault, v, rfl, rfl, Eff.bindOfDone (Eff.attemptOfRaised run)⟩)
  · exact .inl ⟨v, rfl⟩

theorem callbackStops {h : Happening} (any : ∀ fault, h.Raises fault) {x : Run α}
    (out : ∀ w fault v, x w = (.raised fault, v) → h.passed fault = fault) :
    Pass stop .same ((going sees).watch h x) ((stopping sees stop).watch h x) := by
  intro w
  show Passing stop _ ((going sees).watch h x w) ((stopping sees stop).watch h x w)
  rcases callbackEnds sees stop h x w with
    ⟨v, cut⟩ | ⟨a, v, -, left, right⟩ | ⟨fault, v, run, left, right⟩
  · rw [cut]
    exact .stops (.short v _)
  · rw [left, right]
    exact .stops (.answered v rfl)
  · rw [left, right]
    exact .stops (.unchanged (out _ _ _ run) v (any fault))

theorem resumedStops {env : Env} {stack : List Frame} {x : Run α} {post : α → Prop}
    (gives : x.Gives post) :
    Pass stop (.such post) (fromGenerator ((going sees).watch (.resumed env stack) x))
      (fromGenerator ((stopping sees stop).watch (.resumed env stack) x)) := by
  intro w
  show Passing stop _ (fromGenerator ((going sees).watch (.resumed env stack) x) w)
    (fromGenerator ((stopping sees stop).watch (.resumed env stack) x) w)
  rcases callbackEnds sees stop (.resumed env stack) x w with
    ⟨v, cut⟩ | ⟨a, v, run, left, right⟩ | ⟨fault, v, run, left, right⟩
  · rw [leavingExhausted cut]
    exact .stops (.short v _)
  · rw [leavingDone left, leavingDone right]
    exact .stops (.answered v ⟨rfl, gives _ a v run⟩)
  · rw [leavingRaised left, leavingExhausted right]
    exact .stops (.stopped (h := .resumed env stack) v trivial)

theorem callsStop (call : Caller) :
    CallersPass stop ((going sees).calling call) ((stopping sees stop).calling call) := fun f args =>
  callbackStops sees stop (h := .called f args) (fun _ => trivial) fun _ _ _ _ => rfl

theorem forcingStops (call : Caller) (id : Name) : Pass stop .same
    ((going sees).forcing call id) ((stopping sees stop).forcing call id) := by
  refine (passing stop).bind (L := .same) (fun w => .stops (.answered w rfl)) fun _ c c' _ same => ?_
  obtain rfl : c = c' := same
  split
  · exact (passing stop).done rfl
  · exact callbackStops sees stop (h := .thunk id) (fun _ => trivial) fun _ _ _ _ => rfl

variable {a b : Applier} (applies : AppliersPass stop a b)
include applies

theorem drivePasses (call : Caller) (limit : Nat) {env : Env} {stack : List Frame}
    (bare : stack.all Frame.unprotected = true) :
    Passes stop ((going sees).drive a call limit env stack)
      ((stopping sees stop).drive b call limit env stack) := by
  rintro _ x _ _ ⟨rfl, input⟩
  induction limit generalizing env stack x with
  | zero => exact (passing stop).short
  | succ limit ih =>
    have kept : (advance (evalWith call) limit env stack).Gives fun p =>
        (Progress.paused p).unprotected = true := advanceUnprotected bare
    refine (passing stop).bind (resumedStops sees stop kept) fun _ p p' _ same => ?_
    obtain ⟨rfl, after⟩ := same
    cases p with
    | returned v => exact (passing stop).done ⟨rfl, rfl, input⟩
    | yielded v into position =>
      simp only [resume]
      split
      · refine (passing stop).bind (readPartsPasses applies v .only x x le_rfl ⟨rfl, input⟩)
          fun _ o o' _ same => ?_
        cases o <;> cases o' <;> try exact same.elim
        · simp only [leaveThenUnprotected after]
          exact (passing stop).done trivial
        · obtain ⟨value, rfl, rest⟩ := same
          cases value
          exact ih after _ rest
      · simp only [leaveThenUnprotected after]
        exact fun w => .own w rfl

theorem grammarStops (call : Caller) (limit : Nat) {g : Grammar} (sound : g.sound = true) {x : Value}
    (input : x.OnText) : Pass stop (.such Value.Answers)
      (g.applyWatched (going sees) a call limit x)
      (g.applyWatched (stopping sees stop) b call limit x) := by
  by_cases shared : ∃ id, g = .shared id
  · obtain ⟨id, rfl⟩ := shared
    refine (passing stop).bind (forcingStops sees stop call id) fun _ p p' _ same => ?_
    obtain rfl : p = p' := same
    exact applies p x input
  by_cases blocked : ∃ env body, g = .block env body
  · obtain ⟨env, body, rfl⟩ := blocked
    refine givePasses (drivePasses sees stop applies call limit ?_) input
    exact Bool.and_eq_true_iff.mpr ⟨sound, rfl⟩
  by_cases raised : ∃ fault, g = .raising fault
  · obtain ⟨fault, rfl⟩ := raised
    cases fault with
    | missingArgument parameter =>
      intro w
      exact .stops (.unchanged (h := .resumed [] []) rfl (sees (.resumed [] []) w) trivial)
    | _ => cases sound
  · have unshared : ∀ id, g ≠ .shared id := by simpa using shared
    have unblocked : ∀ env body, g ≠ .block env body := by simpa using blocked
    have unraised : ∀ fault, g ≠ .raising fault := by simpa using raised
    rw [applyWatchedOther _ _ _ _ unshared unblocked unraised,
      applyWatchedOther _ _ _ _ unshared unblocked unraised]
    exact applyWithPasses applies (callsStop sees stop call) limit sound unshared unblocked unraised
      input

end

theorem watchedStops (sees : Happening → Store → Store)
    (stop : Happening → Fault → Store → Store) (limit : Nat) (p : Value) {x : Value}
    (input : x.OnText) (w : Store) : Stops stop (fun r r' => r = r' ∧ r.Answers)
      (applyWatched (.going sees) limit p x w) (applyWatched (.stopping sees stop) limit p x w) := by
  induction limit generalizing p x w with
  | zero => exact .short _ _
  | succ limit ih =>
    have applies : AppliersPass stop (applyWatched (.going sees) limit)
        (applyWatched (.stopping sees stop) limit) := fun p x input w => .stops (ih p input w)
    refine appliedStops sees stop (L := .such Value.Answers) ?_ w
    cases p with
    | parser mark g =>
      dsimp only
      split
      · next sound => exact grammarStops sees stop applies (call limit) limit sound input
      · exact (passing stop).short
    | builtin b => exact (passing stop).short
    | lambda name params body env => exact (passing stop).short
    | blockFn name params body env => exact (passing stop).short
    | _ => exact fun w => .own w rfl

/-- The run itself and every run that is watched without being stopped: where it raises, a stopped
run has come to the first fault, which is this one, with the store as it is left. -/
theorem faultsPass {limit : Nat} {p : Value} {text : Text} {w : Store}
    (sound : OnlySound limit p (.str text) w) (stop : Happening → Fault → Store → Store) :
    Stops stop (fun r r' => r = r' ∧ r.Answers) (apply limit p (.str text) w)
      (applyWatched (.stopping (fun _ => id) stop) limit p (.str text) w) ∧
    ∀ sees, Stops stop (fun r r' => r = r' ∧ r.Answers)
      (applyWatched (.going sees) limit p (.str text) w)
      (applyWatched (.stopping sees stop) limit p (.str text) w) := by
  refine ⟨?_, fun sees => watchedStops sees stop limit p ⟨text, rfl⟩ w⟩
  rw [← sound]
  exact watchedStops (fun _ => id) stop limit p ⟨text, rfl⟩ w

def raisingFirst : Value :=
  let read : Value := .parser (.made 0) (.map Atom.item.value (.builtin (.raise .callback)))
  let first : Value := .parser (.made 1) (.keepRight (.parser (.made 2) (.char (.str ['a']))) read)
  .parser (.made 3) (.option .none (.parser (.made 4) (.choice [first, Atom.item.value])))

def notingFault (h : Happening) (fault : Fault) : Store → Store :=
  Store.addEvent (.note (.str (h.passed fault).message))

theorem raisedFirst : OnlySound 8 raisingFirst (.str ['a', 'b']) .empty ∧
    apply 8 raisingFirst (.str ['a', 'b']) .empty = (.raised (.raised .callback ['b']), .empty) ∧
    (applyWatched (.stopping (fun _ => id) notingFault) 8 raisingFirst (.str ['a', 'b']) .empty).2 =
      ⟨#[], #[.note (.str ['b'])], 0⟩ := by
  have sound : OnlySound 8 raisingFirst (.str ['a', 'b']) .empty := rfl
  have run : apply 8 raisingFirst (.str ['a', 'b']) .empty =
    (.raised (.raised .callback ['b']), .empty) := rfl
  have stops := (faultsPass sound notingFault).1
  rw [run] at stops
  obtain ⟨h, fault, same, -, stopped⟩ := stops.ofRaised
  rw [stopped]
  refine ⟨sound, run, ?_⟩
  simp only [notingFault, ← same]
  rfl

def stoppingItself : List Stmt :=
  [.yield (.atom .item) none, .raise (.lit (.str "stop".toList)) .stopIteration]

/- A statement raises one fault and the block another one, and what is given as a word may be no
text. -/
theorem faultsChanged :
    ((advance (eval 8) 8 [] [.statements [.raise (.lit (.str "stop".toList)) .stopIteration]] .empty).1 =
        .raised (.raised .stopIteration "stop".toList) ∧
      apply 8 (.parser (.made 0) (.block [] stoppingItself)) (.str ['a', 'b']) .empty =
        (.raised (.raised .runtime "generator raised StopIteration".toList), .empty)) ∧
    apply 8 (.parser (.made 0) (.string (.int 5))) (.str ['a']) .empty =
      (.raised (.notWord .int), .empty) ∧
    isOwn (.notWord .int) = false :=
  ⟨⟨rfl, rfl⟩, rfl, rfl⟩

end ParseKit.Script
