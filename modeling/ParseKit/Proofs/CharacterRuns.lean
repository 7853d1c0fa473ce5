import ParseKit.Proofs.Joining
import ParseKit.Proofs.LongestNumeral

/-! Character runs. A text is cut in front of the first character that a predicate does not hold of,
the predicate being called once for each character up to there. Main statement: what repetitions
take is the longest run, and so is each of two of them in a row. -/
namespace ParseKit.Script

/-- The longest front of a text in which all characters pass the test, and the rest behind it. -/
structure LongestRun (test : Char → Bool) (text u r : Text) : Prop where
  joined : text = u ++ r
  passes : ∀ a ∈ u, test a = true
  longest : ∀ v s, text = v ++ s → (∀ a ∈ v, test a = true) → v.length ≤ u.length

theorem longestSpan {test : Char → Bool} {text u r : Text} :
    LongestRun test text u r ↔ Span test text u r := by
  constructor
  · rintro ⟨rfl, passes, longest⟩
    refine ⟨rfl, passes, fun d more same => Bool.eq_false_iff.mpr fun passed => ?_⟩
    have longer := longest (u ++ [d]) more (by simp [same])
      (List.forall_mem_append.mpr ⟨passes, List.forall_mem_singleton.mpr passed⟩)
    rw [List.length_append, List.length_singleton] at longer
    omega
  · rintro ⟨rfl, all, stops⟩
    refine ⟨rfl, all, fun v s same passes => ?_⟩
    obtain ⟨k, rfl, -⟩ := spanFront passes stops same
    rw [List.length_append]
    exact Nat.le_add_right _ _

theorem longestRunExists (test : Char → Bool) (text : Text) : ∃ u r, LongestRun test text u r := by
  obtain ⟨u, r, span⟩ := spanExists test text
  exact ⟨u, r, longestSpan.mpr span⟩

theorem LongestRun.behind {test : Char → Bool} {text u r : Text}
    (longest : LongestRun test text u r) : LongestRun test r [] r :=
  longestSpan.mpr ⟨rfl, nofun, (longestSpan.mp longest).stops⟩

namespace Calling
variable (c : Calling)

/- From such stores the function comes to a verdict on each character, which is that of the test. -/
def Judges (safe : Store → Prop) (f : Value) (test : Char → Bool) : Prop :=
  ∀ a w, safe w → ∃ v w', (c.called f (.str [a])).Ends w (.done v) w' ∧ v.truth = test a ∧ safe w'

inductive Calls (f : Value) : List (Char × Bool) → Store → Store → Prop where
  | done (w : Store) : Calls f [] w w
  | call {a : Char} {passed : Bool} {v : Value} {w u w' : Store} {others : List (Char × Bool)}
      (ends : (c.called f (.str [a])).Ends w (.done v) u) (verdict : v.truth = passed)
      (behind : Calls f others u w') : Calls f ((a, passed) :: others) w w'

def runCalls (u r : Text) : List (Char × Bool) := u.map (·, true) ++ (r.take 1).map (·, false)

theorem satAgrees (mark : Mark) (f : Value) (a : Char) (text : Text) :
    Agree (c.called (.parser mark (.sat f)) (.str (a :: text)))
      ((c.called f (.str [a])).bind fun v =>
        .ret (if v.truth then .success (.str [a]) (.str text) else .failure)) := by
  refine .later fun limit => (c.applies limit mark (.sat f) _).trans ?_
  change (((c.call limit f [.str [a]] [] >>= fun v => pure v.truth) >>= fun passed =>
    if passed then Parser.ret (.str [a]) (.str text) else Parser.fail (.str text)) >>= fun o =>
      pure (Value.ofOutcome o)) = _
  refine (Eff.bindAssoc _ _ _).trans ((Eff.bindAssoc _ _ _).trans (bind_congr fun v => ?_))
  dsimp only
  cases v.truth <;> rfl

theorem satAtEnd (mark : Mark) (f : Value) :
    Agree (c.called (.parser mark (.sat f)) (.str [])) (.ret .failure) :=
  .later fun limit => c.applies limit mark (.sat f) _

section
variable {c} {f : Value} {w w' : Store}

theorem Judges.calls {safe : Store → Prop} {test : Char → Bool} (judges : c.Judges safe f test)
    (start : safe w) (text : Text) :
    ∃ w', c.Calls f (text.map fun a => (a, test a)) w w' ∧ safe w' := by
  induction text generalizing w with
  | nil => exact ⟨w, .done w, start⟩
  | cons a text ih =>
    obtain ⟨v, u, ends, verdict, kept⟩ := judges a w start
    obtain ⟨w', others, kept⟩ := ih kept
    exact ⟨w', .call ends verdict others, kept⟩

theorem runVerdicts {test : Char → Bool} {text u r : Text} (span : Span test text u r) :
    (u ++ r.take 1).map (fun a => (a, test a)) = runCalls u r := by
  have passed : ∀ a ∈ u, (a, test a) = (a, true) := fun a inside => by rw [span.all a inside]
  rw [List.map_append, runCalls, List.map_congr_left passed]
  cases r with
  | nil => rfl
  | cons d r => simp [span.stops d r rfl]

theorem Calls.greatest {u r : Text} (calls : c.Calls f (runCalls u r) w w') (mark : Mark) :
    Greatest (c.Applied (.parser mark (.sat f))) (.str (u ++ r)) w (u.map Value.ofChar) (.str r)
      w' := by
  induction u generalizing w with
  | nil =>
    refine ⟨w, .stop _ w, ?_⟩
    cases r with
    | nil =>
      cases calls
      exact (c.satAtEnd mark f _ _ _).mpr Running.endsRet
    | cons d r =>
      cases calls with
      | call ends verdict behind =>
        cases behind
        refine (c.satAgrees mark f d r _ _ _).mpr (Running.endsThen ends ?_)
        rw [verdict]
        exact Running.endsRet
  | cons a u ih =>
    cases calls with
    | call ends verdict behind =>
      obtain ⟨v, successes, stops⟩ := ih behind
      refine ⟨v, .next ?_ successes, stops⟩
      refine (c.satAgrees mark f a (u ++ r) _ _ _).mpr (Running.endsThen ends ?_)
      rw [verdict]
      exact Running.endsRet

end

/-- What repetitions of characters that satisfy a predicate do with a run and the rest behind it.
The predicate is called as it takes to tell the run from the rest, and nothing else is done. -/
structure TakesRun (f : Value) (u r : Text) (w w' : Store) : Prop where
  calls : c.Calls f (runCalls u r) w w'
  joined : ∀ i j, c.Applied (.parser i (.repeated 0 .joined (.parser j (.sat f)))) (.str (u ++ r)) w
    (.success (.str u) (.str r)) w'
  some : u ≠ [] → ∀ i j, c.Applied (.parser i (.repeated 1 .joined (.parser j (.sat f))))
    (.str (u ++ r)) w (.success (.str u) (.str r)) w'
  none : u = [] → ∀ i j, c.Applied (.parser i (.repeated 1 .joined (.parser j (.sat f))))
    (.str (u ++ r)) w .failure w'
  listed : ∀ i j, c.Applied (.parser i (.repeated 0 .asList (.parser j (.sat f)))) (.str (u ++ r)) w
    (.success (.list (u.map Value.ofChar)) (.str r)) w'
  still : (∀ a v x y, (c.called f (.str [a])).Ends x (.done v) y → y = x) → w' = w
  noted : ∀ notes : Char → List Event, (∀ a v x y, (c.called f (.str [a])).Ends x (.done v) y →
      y.events.toList = x.events.toList ++ notes a) →
    w'.events.toList = w.events.toList ++ (u ++ r.take 1).flatMap notes

structure TakesTwo (f g : Value) (u v s : Text) (w w' : Store) : Prop where
  calls : ∃ mid, c.Calls f (runCalls u (v ++ s)) w mid ∧ c.Calls g (runCalls v s) mid w'
  joined : ∀ i j k l m, c.Applied (.parser i (.sequenceText
      [.parser j (.repeated 0 .joined (.parser k (.sat f))),
        .parser l (.repeated 0 .joined (.parser m (.sat g)))])) (.str (u ++ (v ++ s))) w
    (.success (.str (u ++ v)) (.str s)) w'

section
variable {c} {f : Value} {w w' : Store} {u r : Text}

theorem charactersJoined (u : Text) : joined (u.map Value.ofChar) = .str u := by
  induction u with
  | nil => rfl
  | cons a u ih =>
    rw [joined] at ih ⊢
    rw [List.map_cons, List.map_cons, List.flatten_cons, Value.str.inj ih]
    rfl

theorem Calls.still {calls : List (Char × Bool)} (made : c.Calls f calls w w')
    (silent : ∀ a v x y, (c.called f (.str [a])).Ends x (.done v) y → y = x) : w' = w := by
  induction made with
  | done => rfl
  | call ends _ _ ih => rw [ih, silent _ _ _ _ ends]

theorem Calls.noted {calls : List (Char × Bool)} (made : c.Calls f calls w w')
    {notes : Char → List Event} (each : ∀ a v x y, (c.called f (.str [a])).Ends x (.done v) y →
      y.events.toList = x.events.toList ++ notes a) :
    w'.events.toList = w.events.toList ++ (calls.map Prod.fst).flatMap notes := by
  induction made with
  | done => simp
  | call ends _ _ ih =>
    rw [ih, each _ _ _ _ ends, List.append_assoc, List.map_cons, List.flatMap_cons]

theorem Calls.takesRun (calls : c.Calls f (runCalls u r) w w') : c.TakesRun f u r w w' := by
  have texts : ∀ v ∈ u.map Value.ofChar, v.IsText := by
    rintro _ inside
    obtain ⟨a, -, rfl⟩ := List.mem_map.mp inside
    exact ⟨[a], rfl⟩
  have run (i j : Mark) (least : Nat) {exit v}
      (gathers : (gathered least .joined (u.map Value.ofChar, .str r)).Ends w' exit v) :
      (c.called (.parser i (.repeated least .joined (.parser j (.sat f)))) (.str (u ++ r))).Ends w
        exit v := repeatedGathers (calls.greatest j) i gathers
  have joins := charactersJoined u ▸ joiningEnds (w := w') texts (.str r)
  refine ⟨calls, fun i j => run i j 0 joins, fun some i j => run i j 1 ?_,
    fun none i j => run i j 1 ?_, fun i j => appliedRepeated (calls.greatest j) i 0,
    calls.still, fun notes each => ?_⟩
  · have enough : 0 < u.length := List.length_pos_iff.mpr some
    rw [gathered, List.length_map, if_neg (by omega)]
    exact joins
  · subst none
    exact Running.endsRet
  · have characters : (runCalls u r).map Prod.fst = u ++ r.take 1 := by
      simp [runCalls, Function.comp_def]
    exact characters ▸ calls.noted each

theorem Calls.takesTwo {g : Value} {v s : Text} {mid : Store}
    (first : c.Calls f (runCalls u (v ++ s)) w mid) (second : c.Calls g (runCalls v s) mid w') :
    c.TakesTwo f g u v s w w' := by
  refine ⟨⟨mid, first, second⟩, fun i j k l m => ?_⟩
  have order := InOrder.next (first.takesRun.joined j k)
    (.next (second.takesRun.joined l m) (.stop (.str s) w'))
  refine (c.sequenceTextAgrees i _ _ _ _ _).mpr (Running.endsThen order.ran ?_)
  have texts : ∀ t ∈ [Value.str u, .str v], t.IsText := by simp [Value.IsText]
  have both : joined [.str u, .str v] = .str (u ++ v) := by simp [joined, Value.plain]
  exact both ▸ joiningEnds texts (.str s)

theorem Judges.runs {safe : Store → Prop} {test : Char → Bool} (judges : c.Judges safe f test)
    (start : safe w) {text : Text} (longest : LongestRun test text u r) :
    ∃ w', c.Calls f (runCalls u r) w w' ∧ safe w' := by
  have made := judges.calls start (u ++ r.take 1)
  rwa [runVerdicts (longestSpan.mp longest)] at made

end
end Calling

/-- Repetitions of characters take the longest run, and their predicate is called on what they take
and at most once more. The next one takes the longest run of what is left, which is nothing if it has
the same predicate. -/
theorem runsAreLongest (c : Calling) {safe : Store → Prop} {f g : Value} {test test' : Char → Bool}
    (judges : c.Judges safe f test) (judges' : c.Judges safe g test') (text : Text) :
    (∃ u r, LongestRun test text u r) ∧
    ∀ u r, LongestRun test text u r → ∀ w, safe w →
      (∃ w', c.TakesRun f u r w w' ∧ safe w' ∧ ∃ w'', c.TakesRun f [] r w' w'') ∧
      (∃ v s, LongestRun test' r v s) ∧
      ∀ v s, LongestRun test' r v s → ∃ w', c.TakesTwo f g u v s w w' := by
  refine ⟨longestRunExists test text, fun u r longest w start => ⟨?_, longestRunExists test' r, ?_⟩⟩
  · obtain ⟨w', calls, kept⟩ := judges.runs start longest
    obtain ⟨w'', others, -⟩ := judges.runs kept longest.behind
    exact ⟨w', calls.takesRun, kept, w'', others.takesRun⟩
  · intro v s longest'
    obtain ⟨mid, first, kept⟩ := judges.runs start longest
    obtain ⟨w', second, -⟩ := judges'.runs kept longest'
    rw [longest'.joined] at first
    exact ⟨w', first.takesTwo second⟩

theorem classJudges (k : CharClass) :
    Calling.script.Judges (fun _ => True) (.builtin (.holds k)) k.holds := fun a w _ =>
  ⟨.bool (k.holds a), w, ⟨nofun, 1, rfl⟩, rfl, trivial⟩

theorem logJudges : Calling.script.Judges (fun _ => True) (.builtin .log) fun _ => true :=
  fun a w _ => ⟨.str [a], w.addEvent (.note (.str [a])), ⟨nofun, 1, rfl⟩, rfl, trivial⟩

theorem lettersBeforeDigit :
    LongestRun CharClass.lower.holds ['a', 'b', '1', 'c'] ['a', 'b'] ['1', 'c'] ∧
    Calling.script.TakesRun (.builtin (.holds .lower)) ['a', 'b'] ['1', 'c'] .empty .empty ∧
    (∃ w', Calling.script.TakesTwo (.builtin (.holds .lower)) (.builtin (.holds .digit)) ['a', 'b']
      ['1'] ['c'] .empty w') ∧
    ∃ w', Calling.script.TakesRun (.builtin .log) ['a', 'b'] [] .empty w' ∧
      w'.events = #[.note (.str ['a']), .note (.str ['b'])] := by
  have letters : LongestRun CharClass.lower.holds ['a', 'b', '1', 'c'] ['a', 'b'] ['1', 'c'] := by
    refine longestSpan.mpr
      ⟨rfl, List.forall_mem_cons.mpr ⟨rfl, List.forall_mem_singleton.mpr rfl⟩, ?_⟩
    rintro _ _ ⟨⟩
    rfl
  have digit : LongestRun CharClass.digit.holds ['1', 'c'] ['1'] ['c'] := by
    refine longestSpan.mpr ⟨rfl, List.forall_mem_singleton.mpr rfl, ?_⟩
    rintro _ _ ⟨⟩
    rfl
  have all : LongestRun (fun _ => true) ['a', 'b'] ['a', 'b'] [] :=
    longestSpan.mpr ⟨rfl, fun _ _ => rfl, nofun⟩
  obtain ⟨⟨w', takes, -⟩, -, two⟩ := (runsAreLongest Calling.script (classJudges .lower)
    (classJudges .digit) ['a', 'b', '1', 'c']).2 _ _ letters .empty trivial
  obtain ⟨⟨v', logged, -⟩, -⟩ :=
    (runsAreLongest Calling.script logJudges logJudges ['a', 'b']).2 _ _ all .empty trivial
  have silent : w' = .empty := takes.still fun a v x y ends => by
    have same : (Calling.script.called (.builtin (.holds .lower)) (.str [a])).Ends x
      (.done (.bool (CharClass.lower.holds a))) x := ⟨nofun, 1, rfl⟩
    exact (Running.endsOnce ends same).2
  refine ⟨letters, silent ▸ takes, two _ _ digit, v', logged, ?_⟩
  have events := logged.noted (fun a => [.note (.str [a])]) fun a v x y ends => by
    have same : (Calling.script.called (.builtin .log) (.str [a])).Ends x (.done (.str [a]))
      (x.addEvent (.note (.str [a]))) := ⟨nofun, 1, rfl⟩
    rw [(Running.endsOnce ends same).2]
    exact Array.toList_push
  exact Array.toList_inj.mp events

end ParseKit.Script
