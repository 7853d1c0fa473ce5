import ParseKit.Proofs.Alternatives
import ParseKit.Proofs.Exchange.Relocating
import ParseKit.Proofs.Exchange.Replaying
import ParseKit.Proofs.Sameness

/-! Factoring of alternatives that begin alike. An alternative is tried on the input as it was, so that
what stands in front of both may as well be applied before each of them: it comes to the same again, but
that the cells it makes then have other names. Main statement: sequencing distributes over choice on the
right of it, up to what is told while the parsers of cells are built, if the head and the functions tell
nothing, and on the left of it as far as the choice succeeds. -/
namespace ParseKit.Script

/- `lambda v: f(v) | g(v)`. -/
def alternating (name : Name) (f g : Value) : Value :=
  .lambda name ["v"]
    (.binary .alt (.call (.var "f") [.var "v"] []) (.call (.var "g") [.var "v"] []))
    [("f", f), ("g", g)]

structure Silently (m : Nat) (f v : Value) (w : Store) (r : Value) (u : Store) : Prop where
  run : callWary m f [v] [] w = (.done r, u)
  events : u.events = w.events

def Exit.falls : Exit Value → Bool
  | .done r => !r.truth
  | _ => false

theorem fallsSeen {exit exit' : Exit Value} (seen : Exit.seen exit = Exit.seen exit') :
    Exit.falls exit = Exit.falls exit' := by
  have itself : (exit : Exit Value) → Exit.falls (Exit.seen exit) = Exit.falls exit
    | .done r => congrArg not (Value.truthSeen r)
    | .raised _ | .exhausted => rfl
  rw [← itself exit, seen, itself exit']

/- On this text the head does not raise and tells nothing, nor do the functions of the value that it
gives. They give parsers, which come to an end, the second one if the first one fails. -/
inductive Factors (m : Nat) (p f g : Value) (text : Text) (w : Store) : Prop where
  | fails {u : Store} (head : Silently m p (.str text) w .failure u)
  | passes {v rest q q' : Value} {u u' u'' : Store}
      (head : Silently m p (.str text) w (.success v rest) u) (left : Silently m f v u q u')
      (right : Silently m g v u q' u'') (parser : q.isParser = true)
      (first : (callWary m q [rest] [] u').1 ≠ .exhausted)
      (second : Exit.falls (callWary m q [rest] [] u').1 = true →
        (callWary m q' [rest] [] u'').1 ≠ .exhausted)

/- What the parser answers when its application begins in this store, and all that has been told then,
but for what is told while the parsers of cells are built. -/
structure Answers (p x : Value) (w : Store) (exit : Exit Value) (told : List Event) : Prop where
  ended : exit ≠ .exhausted
  quiet : ∃ limit after, callPlainly true limit p [x] [] w = (exit, after) ∧
    after.events.toList = told
  heard : ∃ after, (Calling.script.called p x).Ends w exit after ∧ told.Sublist after.events.toList

def AnswerAlike (p q x : Value) (w : Store) : Prop :=
  ∃ exit told exit' told', Answers p x w exit told ∧ Answers q x w exit' told' ∧
    Exit.seen exit = Exit.seen exit' ∧ told.map Event.seen = told'.map Event.seen

theorem answersAnew {w s after : Store} (settled : w.Settled) (fills : s.Fills w) {p x : Value}
    (parser : Over w.known p) (input : Over w.known x) {exit : Exit Value}
    (ends : (anew p x).Ends w exit after) : Answers p x s exit after.events.toList := by
  obtain ⟨ended, less, run⟩ := ends
  obtain ⟨⟨most, filled⟩, name, events⟩ := fills
  obtain ⟨serial, named⟩ := settled.named
  let limit := max less most
  have beside (quiet : Bool) : ∃ u, callPlainly quiet limit p [x] [] s = (exit, u) ∧
      Quieter quiet after.events u.events := by
    have meets := callsAnew limit quiet w.known p [x] [] parser (overCons input nofun) nofun w s
      ⟨filled.more (Nat.le_max_right ..), ⟨events ▸ .refl _, fun _ => events.symm⟩, serial, _, named,
        name.trans named⟩ subset_rfl
    rw [(callAnewBelow (Nat.le_max_left less most) p [x] []).ends run ended] at meets
    generalize callPlainly quiet limit p [x] [] s = q at meets
    cases meets with
    | short cut => exact absurd cut ended
    | done agree => exact ⟨_, rfl, agree.2.1⟩
    | raised agree => exact ⟨_, rfl, agree.2.1⟩
  refine ⟨ended, ?_, ?_⟩
  · obtain ⟨u, quietly, same⟩ := beside true
    exact ⟨limit, u, quietly, congrArg Array.toList (same.2 rfl).symm⟩
  · obtain ⟨u, plainly, heard⟩ := beside false
    exact ⟨u, ⟨ended, limit, (plainBelow limit p [x] []).ends plainly ended⟩, heard.1⟩

def anewOn (f r : Value) : Running Value :=
  (Running.always (Eff.ofExcept (r.outcome "value"))).bind <|
    afterwards fun v rest => (anew f v).bind fun q => anew q rest

section
variable {p f g q q' v x r rest : Value} {w u u' w' : Store} {exit : Exit Value}

theorem anewBind (mark : Mark) (p f x : Value) :
    Agree (anew (.parser mark (.bind p f)) x) ((anew p x).bind (anewOn f)) := by
  refine .later fun limit => ?_
  have opened : callAnew (limit + 1) (.parser mark (.bind p f)) [x] [] =
      (Grammar.bind p f).applyWith (applyBy (callAnew limit)) (callAnew limit) limit x := rfl
  refine opened.trans ((bind_assoc _ _ _).trans (bind_congr fun r => bind_congr fun o => ?_))
  cases o <;> rfl

theorem anewChoice (mark : Mark) (p q x : Value) :
    Agree (anew (.parser mark (.choice [p, q])) x)
      ((anew p x).bind fun r => if r.truth then .ret r else anew q x) := by
  refine .later fun limit => ?_
  have opened : callAnew (limit + 1) (.parser mark (.choice [p, q])) [x] [] =
      (Grammar.choice [p, q]).applyWith (applyBy (callAnew limit)) (callAnew limit) limit x := rfl
  refine opened.trans (bind_congr fun r => ?_)
  dsimp only
  split <;> rfl

theorem anewFails (head : (anew p x).Ends w (.done .failure) u) (mark : Mark) (f : Value) :
    (anew (.parser mark (.bind p f)) x).Ends w (.done .failure) u :=
  (anewBind mark p f x _ _ _).mpr (Running.endsThen head ⟨nofun, 0, rfl⟩)

theorem anewPasses (head : (anew p x).Ends w (.done (.success v rest)) u)
    (function : (anew f v).Ends u (.done q) u') (last : (anew q rest).Ends u' exit w') (mark : Mark) :
    (anew (.parser mark (.bind p f)) x).Ends w exit w' := by
  refine (anewBind mark p f x _ _ _).mpr (Running.endsThen head ?_)
  have read : (Running.always (Eff.ofExcept ((Value.success v rest).outcome "value"))).Ends u
      (.done (.success v rest)) u := ⟨nofun, 0, rfl⟩
  exact Running.endsThen read (Running.endsThen function last)

theorem chosenFirst {y z : Running Value} (ends : y.Ends w exit w') (passes : Exit.falls exit = false) :
    (y.bind fun r => if r.truth then .ret r else z).Ends w exit w' := by
  cases exit with
  | done r =>
    refine Running.endsThen ends ?_
    rw [if_pos (by simpa [Exit.falls] using passes)]
    exact Running.endsRet
  | raised fault => exact Running.endsBind.mpr (.inr ⟨fault, ends, rfl⟩)
  | exhausted => exact absurd rfl ends.1

theorem anewFirst (first : (anew p x).Ends w exit w') (passes : Exit.falls exit = false) (q : Value)
    (mark : Mark) : (anew (.parser mark (.choice [p, q])) x).Ends w exit w' :=
  (anewChoice mark p q x _ _ _).mpr (chosenFirst first passes)

theorem anewSecond {exit' : Exit Value} (first : (anew p x).Ends w exit' u)
    (falls : Exit.falls exit' = true) (second : (anew q x).Ends u exit w') (mark : Mark) :
    (anew (.parser mark (.choice [p, q])) x).Ends w exit w' := by
  cases exit' with
  | done r =>
    refine (anewChoice mark p q x _ _ _).mpr (Running.endsThen first ?_)
    rwa [if_neg (by simpa [Exit.falls] using falls)]
  | raised | exhausted => cases falls

theorem anewAlternating (left : (anew f v).Ends w (.done q) u) (right : (anew g v).Ends u (.done q') u')
    (parser : q.isParser = true) (name : Name) :
    (anew (alternating name f g) v).Ends w (.done (.parser (.made u'.name) (.choice [q, q'])))
      (u'.naming u'.name.next) := by
  have agree : Agree (anew (alternating name f g) v) ((anew f v).bind fun q =>
      (anew g v).bind fun r => .always (either q r)) := .later fun _ => rfl
  obtain ⟨mark, h, rfl⟩ := Value.parserOf parser
  exact (agree _ _ _).mpr (Running.endsThen left (Running.endsThen right ⟨nofun, 0, rfl⟩))

end

section
variable {m : Nat} {p f g v rest q q' : Value} {text : Text} {w u u' u'' : Store}

theorem waryOnTexts (isParser : q.isParser = true) (ends : (callWary m q [rest] [] w).1 ≠ .exhausted) :
    ∃ text, rest = .str text := by
  cases m with
  | zero => exact absurd rfl ends
  | succ m =>
    cases rest with
    | str text => exact ⟨text, rfl⟩
    | _ => exact absurd (by rw [callWary, callMarkedOnTexts isParser m rfl]; rfl) ends

theorem waryBind (head : callWary m p [.str text] [] w = (.done (.success v rest), u))
    (function : callWary m g [v] [] u = (.done q, u')) {exit : Exit Value} {w' : Store}
    (last : callWary m q [rest] [] u' = (exit, w')) (mark : Mark) :
    callWary (m + 1) (.parser mark (.bind p g)) [.str text] [] w = (exit, w') := by
  have opened : callWary (m + 1) (.parser mark (.bind p g)) [.str text] [] =
      (Grammar.bind p g).applyWith (applyBy (callWary m)) (callWary m) m (.str text) := rfl
  have taken : read (applyBy (callWary m)) p (.str text) w = (.done (.success v rest), u) :=
    Eff.bindOfDone head
  rw [opened]
  exact (Eff.bindOfDone taken).trans ((Eff.bindOfDone function).trans last)

variable (settled : w.Settled) (parser : Over w.known p)
include settled parser

theorem factoredFails (head : Silently m p (.str text) w .failure u) (h : Value) (j k l n : Mark) :
    EndSame (anew (.parser j (.bind p h)) (.str text))
      (anew (.parser k (.choice [.parser l (.bind p f), .parser n (.bind p g)])) (.str text)) w := by
  have first := endsAnew head.run nofun
  obtain ⟨settled', lasts, _⟩ := anewLasts settled parser (by simp) first
  obtain ⟨_, exit, after, again, joined⟩ :=
    endsAgain settled settled' lasts parser (by simp) head.run nofun
  cases joined with
  | done agree alike =>
    cases alike.shaped
    have told := agree.2
    rw [head.events] at told
    refine ⟨.done .failure, u, .done .failure, after, anewFails first j h,
      anewSecond (anewFails first l f) rfl (anewFails again n g) k, rfl, ?_⟩
    rw [told.nothing, head.events]

end

section
variable {m : Nat} {p f g v q q' : Value} {text rest : Text} {w u u' u'' : Store}

theorem calledLate (settled : u.Settled) (left : Over u.known f) (right : Over u.known g)
    (value : Over u.known v) (first : Silently m f v u q u') (second : Silently m g v u q' u'')
    (isParser : q.isParser = true) (name : Name) :
    ∃ h q₁ late, (anew (alternating name f g) v).Ends u
        (.done (.parser (.made late.name) (.choice [q, q₁]))) (late.naming late.name.next) ∧
      late.Settled ∧ u'.Lasts late ∧ late.events = u'.events ∧ u''.Moved h late ∧
        q'.Alike (.moving h) q₁ := by
  have given := endsAnew first.run nofun
  obtain ⟨here, since, _⟩ := anewLasts settled left value given
  obtain ⟨h, _, late, again, joined⟩ := endsAgain settled here since right value second.run nofun
  obtain ⟨there, lasts, _⟩ := anewLasts here (Cellular.grow since.known right)
    (Cellular.grow since.known value) again
  cases joined with
  | @done _ q₁ _ _ agree alike =>
    have told := agree.2
    rw [second.events] at told
    exact ⟨h, q₁, late, anewAlternating given again isParser name, there, lasts, told.nothing,
      agree.1, alike⟩

theorem factoredPasses (settled : w.Settled) (parser : Over w.known p) (left : Over w.known f)
    (right : Over w.known g) (head : Silently m p (.str text) w (.success v (.str rest)) u)
    (first : Silently m f v u q u') (second : Silently m g v u q' u'') (isParser : q.isParser = true)
    (ends : (callWary m q [.str rest] [] u').1 ≠ .exhausted)
    (goesOn : Exit.falls (callWary m q [.str rest] [] u').1 = true →
      (callWary m q' [.str rest] [] u'').1 ≠ .exhausted) (name : Name) (j k l n : Mark) :
    EndSame (anew (.parser j (.bind p (alternating name f g))) (.str text))
      (anew (.parser k (.choice [.parser l (.bind p f), .parser n (.bind p g)])) (.str text)) w := by
  have passed := endsAnew head.run nofun
  obtain ⟨here, since, based⟩ := anewLasts settled parser (by simp) passed
  have left' := Cellular.grow since.known left
  have right' := Cellular.grow since.known right
  have value : Over u.known v := by simpa using based _ rfl
  obtain ⟨here', since', based'⟩ := anewLasts here left' value (endsAnew first.run nofun)
  obtain ⟨here'', _, based''⟩ := anewLasts here right' value (endsAnew second.run nofun)
  obtain ⟨h, q₁, late, called, there, lasts, told, moved, alike⟩ :=
    calledLate here left' right' value first second isParser name
  -- The first parser: on the left both functions have been called before, on the right only its own.
  rcases run : callWary m q [.str rest] [] u' with ⟨exit, w'⟩
  rw [run] at ends goesOn
  have half := endsAnew (waryBind head.run first.run run l) ends
  obtain ⟨_, exit₁, after, once, joined⟩ :=
    endsAgain here' there.next (lasts.trans (.next late)) (based' q rfl) (by simp) run ends
  obtain ⟨seen, tells⟩ := relocatedSeen joined
  have heard : SeenAlike w'.events after.events :=
    tells.same (.ofEq told.symm)
  cases falls : Exit.falls exit with
  | false =>
    have passes := (fallsSeen seen).symm.trans falls
    exact ⟨exit₁, after, exit, w', anewPasses passed called (anewFirst once passes q₁ _) j,
      anewFirst half falls _ k, seen.symm, heard.symm⟩
  | true =>
    have falls' := (fallsSeen seen).symm.trans falls
    obtain ⟨last, ago, _⟩ := anewLasts here' (based' q rfl) (by simp) (endsAnew run ends)
    obtain ⟨last', ago', _⟩ := anewLasts there.next
      (Cellular.grow (lasts.trans (.next late)).known (based' q rfl)) (by simp) once
    -- The second parser: on the left its function was called before, on the right the head is applied
    -- once more. Both are compared to what the function gave behind the head alone.
    have ends' := goesOn falls
    rcases run' : callWary m q' [.str rest] [] u'' with ⟨exit', w''⟩
    rw [run'] at ends'
    obtain ⟨_, exit₂, after₂, twice, joined₂⟩ := endsAgain (f := .parser n (.bind p g)) settled last
      (since.trans (since'.trans ago)) (by simpa using ⟨parser, right⟩) (by simp)
      (waryBind head.run second.run run' n) ends'
    obtain ⟨_, exit₃, after₃, later, joined₃⟩ := relocated moved here'' last'
      ((Store.Lasts.next late).trans ago') alike (.str rest) (based'' q' rfl) (by simp) run' ends'
    obtain ⟨seen₂, tells₂⟩ := relocatedSeen joined₂
    obtain ⟨seen₃, tells₃⟩ := relocatedSeen joined₃
    rw [second.events, head.events] at tells₃
    exact ⟨exit₃, after₃, exit₂, after₂, anewPasses passed called (anewSecond once falls' later _) j,
      anewSecond half falls twice k, seen₃.symm.trans seen₂, tells₃.joined tells₂ heard.symm⟩

theorem factored (settled : w.Settled) {s : Store} (fills : s.Fills w) (parser : Over w.known p)
    (left : Over w.known f) (right : Over w.known g) (factors : Factors m p f g text w) (name : Name)
    (j k l n : Mark) : AnswerAlike (.parser j (.bind p (alternating name f g)))
      (.parser k (.choice [.parser l (.bind p f), .parser n (.bind p g)])) (.str text) s := by
  have same : EndSame (anew (.parser j (.bind p (alternating name f g))) (.str text))
      (anew (.parser k (.choice [.parser l (.bind p f), .parser n (.bind p g)])) (.str text)) w := by
    cases factors with
    | fails head => exact factoredFails settled parser head _ j k l n
    | passes head first second isParser ends goesOn =>
      obtain ⟨rest, rfl⟩ := waryOnTexts isParser ends
      exact factoredPasses settled parser left right head first second isParser ends goesOn name
        j k l n
  obtain ⟨exit, after, exit', after', first, second, seen⟩ := same
  have left' : Over w.known (alternating name f g) := by simpa [alternating] using ⟨left, right⟩
  exact ⟨exit, _, exit', _,
    answersAnew settled fills (by simpa using ⟨parser, left'⟩) (by simp) first,
    answersAnew settled fills (by simpa using ⟨⟨parser, left⟩, parser, right⟩) (by simp) second,
    seen.exit, seen.events⟩

end

namespace Calling
variable (c : Calling)

def Yielded (p x v : Value) : Prop := ∃ w rest w', c.Applied p x w (.success v rest) w'

def passedOn (f r : Value) : Running Value :=
  (Running.always (Eff.ofExcept (r.outcome "value"))).bind (afterwards (c.continued f))

section
variable {c} {a b f x : Value} {w : Store}

theorem passedNone {r : Value} (falls : r.truth = false) : c.passedOn f r = .ret .failure := by
  have reads : r.outcome "value" = .ok .failure := by
    unfold Value.outcome
    split
    · cases falls
    · rw [falls]
      rfl
  rw [passedOn, reads]
  rfl

theorem choiceThenBind (i j : Mark) :
    Agree (c.called (.parser i (.bind (.parser j (.choice [a, b])) f)) x)
      ((c.called a x).bind fun r =>
        if r.truth then c.passedOn f r else c.sequenced b f x) := by
  refine (c.bindAgrees i _ f x).trans ((c.sequenceAgrees (c.choiceAgrees j a b x) f).trans ?_)
  simp only [chosen, Running.bindAssoc]
  refine .tail _ fun r => ?_
  -- Once the first parser has succeeded the second one is not tried any more.
  split
  · exact .refl _
  · rw [sequenced, taken, Running.bindAssoc]
    exact .refl _

theorem bindThenChoice (k l m : Mark) :
    Agree (c.called (.parser k (.choice [.parser l (.bind a f), .parser m (.bind b f)])) x)
      ((c.called a x).bind fun r =>
        (c.passedOn f r).bind fun s => if s.truth then .ret s else c.sequenced b f x) := by
  refine (c.choiceAgrees k _ _ x).trans
    ((c.alternativeAgrees (c.bindAgrees l a f x) (c.bindAgrees m b f x)).trans ?_)
  simp only [sequenced, taken, passedOn, Running.bindAssoc]
  exact .refl _

theorem passesOf {exit : Exit Value} (counts : ∀ r, exit = .done r → r.truth = true) :
    Exit.falls exit = false := by
  cases exit with
  | done r => simp [Exit.falls, counts r rfl]
  | raised | exhausted => rfl

theorem distributed {exit : Exit Value} {w' : Store}
    (counts : ∀ r, exit = .done r → r.truth = true) (i j k l m : Mark)
    (ends : (c.called (.parser i (.bind (.parser j (.choice [a, b])) f)) x).Ends w exit w') :
    (c.called (.parser k (.choice [.parser l (.bind a f), .parser m (.bind b f)])) x).Ends w
      exit w' := by
  refine (bindThenChoice k l m w exit w').mpr ?_
  rcases Running.endsBind.mp ((choiceThenBind i j w exit w').mp ends) with
    ⟨r, v, first, last⟩ | ⟨fault, raised, rfl⟩
  · refine Running.endsThen first ?_
    split at last
    · exact chosenFirst last (passesOf counts)
    · next falls =>
      rw [passedNone (Bool.not_eq_true _ ▸ falls)]
      exact last
  · exact Running.endsBind.mpr (.inr ⟨fault, raised, rfl⟩)

end
end Calling

def notesRet : Value := .lambda 6 ["c"] (.unary .ret (.call (.builtin .log) [.var "c"] [])) []

/- Takes what the parser takes and gives a shared parser, which is made anew each time. Building that
one is noted, and it fails. -/
def givesShared (p : Value) : Value :=
  .parser (.made 2) (.bind p (.lambda 1 ["c"] (.unary .ret (.lazy (some ['t']) (.atom .fail))) []))

def itemShared : Value := .parser (.made (.outer .preparing 0 1)) (.shared 0)

def itemCell : Cell := ⟨0, none, .atom .item, [("item", itemShared)], none⟩

def itemBase : Store := ⟨#[itemCell], #[], .outer .preparing 1 1⟩

def itemUsed : Store :=
  ⟨#[itemCell, { itemCell with built := some Atom.item.value }], #[], .outer .stepping 0 0⟩

/-- Alternatives that begin with the same parser can be factored, up to what is told while the parsers
of cells are built, if it and the functions behind it tell nothing and do not raise. A choice in front
of a function can be distributed as far as it succeeds or raises, whatever the function does. -/
theorem factoringIsSound :
    (∀ (m : Nat) (p f g : Value) (text : Text) (w s : Store), w.Settled → s.Fills w →
      Over w.known p → Over w.known f → Over w.known g → Factors m p f g text w → ∀ name j k l n,
        AnswerAlike (.parser j (.bind p (alternating name f g)))
          (.parser k (.choice [.parser l (.bind p f), .parser n (.bind p g)])) (.str text) s) ∧
    ∀ (c : Calling) x a b f i j k l m w exit w', (∀ r, exit = .done r → r.truth = true) →
      (c.called (.parser i (.bind (.parser j (.choice [a, b])) f)) x).Ends w exit w' →
        (c.called (.parser k (.choice [.parser l (.bind a f), .parser m (.bind b f)])) x).Ends w
          exit w' :=
  ⟨fun _ _ _ _ _ _ _ settled fills parser left right factors =>
      factored settled fills parser left right factors,
    fun _ _ _ _ _ i j k l m _ _ _ counts ends => Calling.distributed counts i j k l m ends⟩

theorem sharedFactored :
    let head := givesShared itemShared
    let half : Value := .parser (.made 5) (.bind head (.builtin .identity))
    let noting : Value := .parser (.made 9) (.choice
      [.parser (.made 7) (.bind charA notesRet), .parser (.made 8) (.bind Atom.item.value notesRet)])
    itemBase.begun.Settled ∧ itemUsed.begun.Fills itemBase.begun ∧
    Factors 6 head (.builtin .identity) (.builtin .identity) ['a'] itemBase.begun ∧
    AnswerAlike
      (.parser (.made 4) (.bind head (alternating 3 (.builtin .identity) (.builtin .identity))))
      (.parser (.made 6) (.choice [half, half])) (.str ['a']) itemUsed.begun ∧
    ∃ u, (Calling.script.called noting (.str ['b', 'a'])).Ends .empty
      (.done (.success (.str ['b']) (.str ['a']))) u ∧ u.events = #[.note (.str ['b'])] := by
  have prepared : Program.prepare 3 ⟨[("item", .atom .item)], []⟩ .empty =
    (.done [("item", itemShared)], itemBase) := rfl
  obtain ⟨preparing, bound⟩ := Program.prepareOver prepared
  have empty : ∀ id c, itemBase.cell? id = some c → c.built = none := by
    intro id c found
    rw [List.mem_singleton.mp (latestMem found).1]
    rfl
  have used : Store.After 9 [("item", itemShared)] itemBase itemUsed := by
    have run : Step.answered (callPlainly false 9) [("item", itemShared)] ⟨.var "item", none, none⟩
      ['a'] itemBase = (⟨.done (.front (.success (.str ['a']) (.str []))), []⟩, itemUsed) := rfl
    exact .step .none run (fun cut => by cases cut)
  have settled := preparing.settled empty
  have fills := used.fills preparing empty bound
  have head : Silently 6 (givesShared itemShared) (.str ['a']) itemBase.begun (.success
      (.parser (.made (.outer .stepping 0 1)) (.shared (.outer .stepping 0 0))) (.str [])) _ :=
    ⟨rfl, rfl⟩
  have factors : Factors 6 (givesShared itemShared) (.builtin .identity) (.builtin .identity) ['a']
      itemBase.begun := .passes head ⟨rfl, rfl⟩ ⟨rfl, rfl⟩ rfl
      (fun cut => by cases cut) (fun _ cut => by cases cut)
  have there : (0 : Name) ∈ itemBase.begun.known := rfl
  refine ⟨settled, fills, factors, ?_, ⟨#[], #[.note (.str ['b'])], .outer .preparing 1 0⟩, ?_, rfl⟩
  · exact factoringIsSound.1 6 _ _ _ _ _ _ settled fills
      (by simpa [givesShared, itemShared] using there) (by simp) (by simp) factors 3 _ _ _ _
  · refine factoringIsSound.2 .script (.str ['b', 'a']) charA Atom.item.value notesRet (.made 5)
      (.made 6) _ _ _ _ _ _ ?_ ⟨(fun cut => by cases cut), 6, rfl⟩
    rintro _ ⟨⟩
    rfl

theorem identityGives (v : Value) (w : Store) :
    (Calling.script.called (.builtin .identity) v).Ends w (.done v) w := ⟨nofun, 1, rfl⟩

theorem givesSharedYields {text : Text} {v : Value}
    (yielded : Calling.script.Yielded (givesShared Atom.item.value) (.str text) v) :
    v.isParser = true := by
  obtain ⟨w, rest, u, applied⟩ := yielded
  cases text with
  | nil =>
    have fails : Calling.script.Applied (givesShared Atom.item.value) (.str []) w .failure w :=
      ⟨nofun, 2, rfl⟩
    cases (applied.once fails).1
  | cons c text =>
    have gives : Calling.script.Applied (givesShared Atom.item.value) (.str (c :: text)) w
        (.success _ _) _ := ⟨nofun, 3, rfl⟩
    cases (applied.once gives).1
    rfl

/- Raising nothing and noting nothing is not enough of a head. Where it is applied once, there is one
shared parser, which is built once; where it is applied before each alternative there are two. -/
theorem sharedBuiltTwice :
    let gives := givesShared Atom.item.value
    let head : Value := .parser (.made 4) (.bind gives
      (alternating 3 (.builtin .identity) (.builtin .identity)))
    let half : Value := .parser (.made 5) (.bind gives (.builtin .identity))
    let halves : Value := .parser (.made 6) (.choice [half, half])
    (∀ text w, ∃ o u,
      Calling.script.Applied gives (.str text) w o u ∧ u.events = w.events) ∧
    (∀ text v, Calling.script.Yielded gives (.str text) v →
      v.isParser = true ∧ Calling.script.Silent .all (.builtin .identity) v v) ∧
    (∃ u, Calling.script.Applied head (.str ['a']) .empty .failure u ∧
      u.events = #[.note (.str ['t'])]) ∧
    ∃ u, Calling.script.Applied halves (.str ['a']) .empty .failure u ∧
      u.events = #[.note (.str ['t']), .note (.str ['t'])] := by
  refine ⟨fun text w => ?_, fun text v yielded => ⟨givesSharedYields yielded, fun w => ?_⟩,
    ⟨_, ⟨nofun, 6, rfl⟩, rfl⟩, ⟨_, ⟨nofun, 6, rfl⟩, rfl⟩⟩
  · cases text with
    | nil => exact ⟨.failure, w, ⟨nofun, 2, rfl⟩, rfl⟩
    | cons c rest => exact ⟨.success _ _, _, ⟨nofun, 3, rfl⟩, rfl⟩
  · refine ⟨v, w, identityGives v w, rfl, ?_⟩
    rintro y u _ rfl
    exact .ofAgree (.refl _) u

end ParseKit.Script
