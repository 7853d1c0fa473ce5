import ParseKit.Proofs.Chaining

/-! Repetitions and counts. Both go along the successes of a parser, each on what the one before
left: a repetition as far as there are any, and a count for so many of them. Main statement: a
repetition stops at the greatest count that succeeds, and a count is two smaller ones, one after the
other. -/
namespace ParseKit.Script

abbrev Trying : Type := Value → Store → Outcome Value Value → Store → Prop

def Trying.ReadBy (tries : Trying) (q : Reading) : Prop :=
  ∀ ⦃x w o w'⦄, tries x w o w' → (q x).Ends w (.done o) w'

theorem Trying.ReadBy.once {tries : Trying} {q : Reading} (reads : tries.ReadBy q) {x : Value}
    {w v v' : Store} {o o' : Outcome Value Value} (first : tries x w o v)
    (second : tries x w o' v') : o = o' ∧ v = v' := by
  obtain ⟨same, rfl⟩ := Running.endsOnce (reads first) (reads second)
  cases same
  exact ⟨rfl, rfl⟩

/-- Successes one after another. Each is on what the one before left, and in the store after it. -/
inductive Successes (tries : Trying) :
    (x : Value) → Store → (vs : List Value) → (left : Value) → Store → Prop where
  | stop (x : Value) (w : Store) : Successes tries x w [] x w
  | next {x v rest left : Value} {w u w' : Store} {vs : List Value}
      (first : tries x w (.success v rest) u) (others : Successes tries rest u vs left w') :
      Successes tries x w (v :: vs) left w'

def Greatest (tries : Trying) (x : Value) (w : Store) (vs : List Value) (left : Value)
    (w' : Store) : Prop :=
  ∃ u, Successes tries x w vs left u ∧ tries left u .failure w'

def Advancing (tries : Trying) (x : Value) (w : Store) : Prop :=
  ∀ vs left u, Successes tries x w vs left u →
    ∃ o w', tries left u o w' ∧ ∀ v rest, o = .success v rest → rest.width < left.width

section
variable {tries : Trying} {x left : Value} {w u w' : Store} {vs : List Value}

theorem Greatest.once {q : Reading} (reads : tries.ReadBy q) {vs' : List Value} {left' : Value} {v : Store}
    (first : Greatest tries x w vs left w') (second : Greatest tries x w vs' left' v) :
    vs' = vs ∧ left' = left ∧ v = w' := by
  obtain ⟨u, successes, stops⟩ := first
  obtain ⟨u', successes', stops'⟩ := second
  induction successes generalizing vs' with
  | stop =>
    cases successes' with
    | stop => exact ⟨rfl, rfl, (reads.once stops' stops).2⟩
    | next more _ => cases (reads.once stops more).1
  | next more _ ih =>
    cases successes' with
    | stop => cases (reads.once stops' more).1
    | next more' others =>
      obtain ⟨same, rfl⟩ := reads.once more more'
      cases same
      obtain ⟨rfl, others⟩ := ih stops others
      exact ⟨rfl, others⟩

theorem Advancing.behind (advancing : Advancing tries x w) {v rest : Value}
    (first : tries x w (.success v rest) u) : Advancing tries rest u := fun _ _ _ others =>
  advancing _ _ _ (.next first others)

theorem Advancing.greatest (advancing : Advancing tries x w) :
    ∃ vs left w', Greatest tries x w vs left w' := by
  induction size : x.width using Nat.strongRecOn generalizing x w with
  | ind n ih =>
    obtain ⟨o, u, first, shorter⟩ := advancing _ _ _ (.stop x w)
    cases o with
    | failure => exact ⟨[], x, u, w, .stop x w, first⟩
    | success v rest =>
      obtain ⟨vs, left, w', u', others, stops⟩ :=
        ih rest.width (size ▸ shorter v rest rfl) (advancing.behind first) rfl
      exact ⟨v :: vs, left, w', u', .next first others, stops⟩

theorem advancingOnTexts {q : Reading} (reads : tries.ReadBy q)
    (each : ∀ text w, ∃ o w', tries (.str text) w o w' ∧
      ∀ v rest, o = .success v rest → rest.ShorterThan text) (text : Text) (w : Store) :
    Advancing tries (.str text) w := by
  intro vs left u successes
  generalize same : Value.str text = x at successes
  induction successes generalizing text with
  | stop x w =>
    subst same
    obtain ⟨o, w', tried, shorter⟩ := each text w
    refine ⟨o, w', tried, fun v rest success => ?_⟩
    obtain ⟨rest, rfl, less⟩ := shorter v rest success
    exact less
  | next first _ ih =>
    subst same
    obtain ⟨o, w', tried, shorter⟩ := each text _
    obtain ⟨rest, rfl, -⟩ := shorter _ _ (reads.once tried first).1
    exact ih rest rfl

theorem Successes.take (successes : Successes tries x w vs left u) (n : Nat) :
    ∃ mid v, Successes tries x w (vs.take n) mid v := by
  induction successes generalizing n with
  | stop x w => exact ⟨x, w, by simpa using .stop x w⟩
  | @next x _ _ _ w _ _ _ first _ ih =>
    cases n with
    | zero => exact ⟨x, w, .stop x w⟩
    | succ n =>
      obtain ⟨mid, u, others⟩ := ih n
      exact ⟨mid, u, .next first others⟩

end

def onward {α β : Type} (next : α → Value → Running (Outcome Value β)) :
    Outcome Value α → Running (Outcome Value β)
  | .failure => .ret .failure
  | .success v rest => next v rest

theorem onwardBind {α β γ : Type} (y : Running (Outcome Value α))
    (f : α → Value → Running (Outcome Value β)) (g : β → Value → Running (Outcome Value γ)) :
    (y.bind (onward f)).bind (onward g) =
      y.bind (onward fun v rest => (f v rest).bind (onward g)) := by
  rw [Running.bindAssoc]
  congr 1
  funext o
  cases o <;> rfl

section
variable (q : Reading)

def counts : (n : Nat) → (x : Value) → Running (Outcome Value (List Value))
  | 0, x => .ret (.success [] x)
  | n + 1, x => (q x).bind <| onward fun v rest =>
    (counts n rest).bind <| onward fun vs left => .ret (.success (v :: vs) left)

theorem countsAdd (m n : Nat) (x : Value) :
    counts q (m + n) x = (counts q m x).bind (onward fun vs rest =>
      (counts q n rest).bind <| onward fun ws left => .ret (.success (vs ++ ws) left)) := by
  induction m generalizing x with
  | zero =>
    rw [Nat.zero_add]
    refine (Running.bindRet _).symm.trans (congrArg _ (funext fun o => ?_))
    cases o <;> rfl
  | succ m ih =>
    rw [Nat.succ_add]
    simp only [counts, onwardBind, ih]
    rfl

theorem countsFrom (limit n : Nat) (seen : List Value) (x : Value) :
    Parser.countFrom (q.within limit) seen n x =
      ((counts q n x).bind <| onward fun vs left =>
        .ret (.success (seen.reverse ++ vs) left)).within limit := by
  induction n generalizing seen x with
  | zero =>
    rw [counts, Running.retBind, onward, List.append_nil]
    rfl
  | succ n ih =>
    rw [counts, onwardBind]
    refine bind_congr fun o => ?_
    cases o with
    | failure => rfl
    | success v rest =>
      refine (ih (v :: seen) rest).trans ?_
      simp only [onward, onwardBind, List.reverse_cons, List.append_assoc]
      rfl

end

section
variable {tries : Trying} {q : Reading} (reads : tries.ReadBy q) {x left : Value} {w u w' : Store}
  {vs : List Value}
include reads

theorem Greatest.rounds (greatest : Greatest tries x w vs left w') (seen : List Value) :
    (repeatRounds q (vs.length + 1) seen x).Ends w (.done (seen.reverse ++ vs, left)) w' := by
  obtain ⟨_, successes, stops⟩ := greatest
  induction successes generalizing seen with
  | stop x w =>
    rw [List.append_nil]
    exact Running.endsThen (reads stops) Running.endsRet
  | @next _ v _ _ _ _ _ _ first _ ih =>
    have others := ih (v :: seen) stops
    rw [List.reverse_cons, List.append_assoc] at others
    exact Running.endsThen (reads first) others

theorem Successes.counted (successes : Successes tries x w vs left u) :
    (counts q vs.length x).Ends w (.done (.success vs left)) u := by
  induction successes with
  | stop => exact Running.endsRet
  | next first _ ih =>
    exact Running.endsThen (reads first) (Running.endsThen ih Running.endsRet)

theorem Greatest.noMore (greatest : Greatest tries x w vs left w') {n : Nat}
    (more : vs.length < n) : (counts q n x).Ends w (.done .failure) w' := by
  obtain ⟨n, rfl⟩ := Nat.exists_eq_add_of_lt more
  obtain ⟨_, successes, stops⟩ := greatest
  rw [Nat.add_assoc, countsAdd]
  exact Running.endsThen (successes.counted reads)
    (Running.endsThen (Running.endsThen (reads stops) Running.endsRet) Running.endsRet)

theorem Advancing.counted (advancing : Advancing tries x w) {n : Nat}
    (run : (counts q n x).Ends w (.done (.success vs left)) u) :
    vs.length = n ∧ Successes tries x w vs left u := by
  induction n generalizing x w vs with
  | zero =>
    obtain ⟨same, rfl⟩ := Running.endsOnce run Running.endsRet
    cases same
    exact ⟨rfl, .stop _ _⟩
  | succ n ih =>
    obtain ⟨o, v, first, -⟩ := advancing _ _ _ (.stop _ _)
    rcases Running.endsBind.mp run with ⟨o', v', head, tail⟩ | ⟨_, _, raised⟩
    · obtain ⟨same, rfl⟩ := Running.endsOnce head (reads first)
      cases same
      cases o with
      | failure => cases (Running.endsOnce tail Running.endsRet).1
      | success a rest =>
        rcases Running.endsBind.mp tail with ⟨o, v, others, last⟩ | ⟨_, _, raised⟩
        · cases o with
          | failure => cases (Running.endsOnce last Running.endsRet).1
          | success vs rest =>
            obtain ⟨same, rfl⟩ := Running.endsOnce last Running.endsRet
            cases same
            obtain ⟨rfl, successes⟩ := ih (advancing.behind first) others
            exact ⟨rfl, .next first successes⟩
        · cases raised
    · cases raised

end

def listed : Outcome Value (List Value) → Outcome Value Value
  | .failure => .failure
  | .success vs rest => .success (.list vs) rest

def gathered (least : Nat) (collect : Collect) : List Value × Value → Running Value
  | (vs, left) =>
    if vs.length < least then .ret .failure
    else (Running.always (collect.apply vs)).bind fun v => .ret (.success v left)

namespace Calling
variable (c : Calling)

theorem repeatedUnrolls (mark : Mark) (least : Nat) (collect : Collect) (p x : Value) :
    Unrolls (c.called (.parser mark (.repeated least collect p)) x) fun rounds =>
      (repeatRounds (c.taken p) rounds [] x).bind (gathered least collect) := by
  refine .ofLimit (fun limit => ?_) fun le limit =>
    (repeatRoundsMono _ le limit [] x).bind fun _ => .refl _
  refine (c.applies limit mark (.repeated least collect p) x).trans ?_
  have loop := repeatRoundsFrom (c.taken p) limit limit [] x
  refine (Eff.bindAssoc _ _ _).trans ((Eff.bindAssoc _ _ _).trans ?_)
  refine Eq.trans ?_ (congrArg (· >>= _) loop.symm)
  refine bind_congr fun (vs, left) => ?_
  simp only [gathered]
  split
  · rfl
  · exact Eff.bindAssoc _ _ _

section
variable {c} {p x : Value}

theorem viewedOf {view : Value → Except Fault (Outcome Value Value)}
    (back : ∀ o, view (Value.ofOutcome o) = .ok o) {y : Running (Outcome Value Value)}
    (agree : Agree (c.called p x) (y.bind fun o => .ret (.ofOutcome o))) :
    Agree (c.viewed view p x) y := by
  refine (agree.head _).trans ?_
  simp only [Running.bindAssoc, Running.retBind, viewRet (back _), Running.bindRet]
  exact .refl y

end

theorem countAgrees (mark : Mark) (n : Int) (p x : Value) :
    Agree (c.called (.parser mark (.count n p)) x)
      ((counts (c.taken p) n.toNat x).bind fun o => .ret (.ofOutcome (listed o))) := by
  refine .later fun limit => (c.applies limit mark (.count n p) x).trans ?_
  have values := countsFrom (c.taken p) limit n.toNat [] x
  refine (Eff.bindAssoc _ _ _).trans ((congrArg (· >>= _) values).trans ?_)
  refine (Eff.bindAssoc _ _ _).trans (bind_congr fun o => ?_)
  cases o <;> rfl

theorem pairAgrees (mark : Mark) (a b x : Value) :
    Agree (c.called (.parser mark (.pair a b)) x)
      (((c.viewed (Value.outcome "remaining") a x).bind <| onward fun v rest =>
        (c.taken b rest).bind <| onward fun w left => .ret (.success (.tuple [v, w]) left)).bind
          fun o => .ret (.ofOutcome o)) := by
  refine .later fun limit => (c.applies limit mark (.pair a b) x).trans ?_
  refine ((Eff.bindAssoc _ _ _).trans (Eff.bindAssoc _ _ _)).trans (.trans ?_ (Eff.bindAssoc _ _ _).symm)
  refine bind_congr fun o => ?_
  cases o with
  | failure => rfl
  | success v rest =>
    refine (Eff.bindAssoc _ _ _).trans (.trans ?_ (Eff.bindAssoc _ _ _).symm)
    exact bind_congr fun o => by cases o <;> rfl

section
variable {c} {p x left : Value} {w w' : Store} {vs : List Value}

theorem appliedReadBy : Trying.ReadBy (c.Applied p) (c.taken p) := fun _ _ _ _ applied =>
  applied.taken

theorem appliedCount {o : Outcome Value (List Value)} {n : Int}
    (counted : (counts (c.taken p) n.toNat x).Ends w (.done o) w') (mark : Mark) :
    c.Applied (.parser mark (.count n p)) x w (listed o) w' :=
  (c.countAgrees mark n p x _ _ _).mpr (Running.endsThen counted Running.endsRet)

theorem appliedRepeated (greatest : Greatest (c.Applied p) x w vs left w') (mark : Mark)
    (least : Nat) : c.Applied (.parser mark (.repeated least .asList p)) x w
      (if vs.length < least then .failure else .success (.list vs) left) w' := by
  refine (c.repeatedUnrolls mark least .asList p x _ _ _).mpr ⟨vs.length + 1, ?_⟩
  refine Running.endsThen (greatest.rounds appliedReadBy []) ?_
  rw [List.reverse_nil, List.nil_append, gathered]
  split
  · exact Running.endsRet
  · exact Running.endsThen (a := .list vs) ⟨nofun, 0, rfl⟩ Running.endsRet

end

section
variable {view : Value → Except Fault (Outcome Value Value)}
  (back : ∀ o, view (Value.ofOutcome o) = .ok o)
include back

theorem countViewed (mark : Mark) (n : Nat) (p x : Value) :
    Agree (c.viewed view (.parser mark (.count n p)) x)
      ((counts (c.taken p) n x).bind fun o => .ret (listed o)) := by
  refine viewedOf back ?_
  rw [Running.bindAssoc]
  exact c.countAgrees mark n p x

theorem pairViewed (mark : Mark) (a b x : Value) :
    Agree (c.viewed view (.parser mark (.pair a b)) x)
      ((c.viewed (Value.outcome "remaining") a x).bind <| onward fun v rest =>
        (c.taken b rest).bind <| onward fun w left => .ret (.success (.tuple [v, w]) left)) :=
  viewedOf back (c.pairAgrees mark a b x)

end

theorem countsJoin {h : Value}
    (joins : ∀ vs ws, Agree (c.called h (.tuple [.list vs, .list ws])) (.ret (.list (vs ++ ws))))
    (m n : Nat) (p x : Value) (m₁ m₂ m₃ m₄ m₅ : Mark) :
    Agree (c.called (.parser m₁ (.count ↑(m + n) p)) x)
      (c.called (.parser m₂ (.map
        (.parser m₃ (.pair (.parser m₄ (.count m p)) (.parser m₅ (.count n p)))) h)) x) := by
  refine .trans ?_ (c.mapAgrees m₂ _ h x).symm
  have first := c.countViewed (outcomeIsRead "remaining") m₄ m p x
  have pair := c.pairViewed (outcomeIsRead "value") m₃ (.parser m₄ (.count m p))
    (.parser m₅ (.count n p)) x
  refine .trans ?_ ((pair.trans (first.head _)).head _).symm
  refine (c.countAgrees m₁ ↑(m + n) p x).trans ?_
  rw [Int.toNat_natCast, countsAdd]
  simp only [Running.bindAssoc, Running.retBind]
  refine .tail _ fun o => ?_
  cases o with
  | failure => exact .refl _
  | success vs rest =>
    have second := c.countViewed (outcomeIsRead "value") m₅ n p rest
    simp only [onward, listed, Running.bindAssoc]
    refine .trans ?_ (second.head _).symm
    simp only [Running.bindAssoc, Running.retBind]
    refine .tail _ fun o => ?_
    cases o with
    | failure => exact .refl _
    | success ws left => exact ((joins vs ws).head fun u => .ret (Value.success u left)).symm

/- The values of the greatest count that succeeds, with what a repetition and each count give. -/
structure MostOften (p x : Value) (w : Store) (vs : List Value) (left : Value) (w' : Store) :
    Prop where
  repeats : ∀ m, c.Applied (.parser m (.repeated 0 .asList p)) x w (.success (.list vs) left) w'
  only : ∀ m exit v, (c.called (.parser m (.repeated 0 .asList p)) x).Ends w exit v →
    exit = .done (.success (.list vs) left) ∧ v = w'
  counts : ∀ m (n : Int), (∃ a rest v, c.Applied (.parser m (.count n p)) x w (.success a rest) v) ↔
    n ≤ vs.length
  takes : ∀ m (n : Int) a rest v, c.Applied (.parser m (.count n p)) x w (.success a rest) v →
    a = .list (vs.take n.toNat)
  noMore : ∀ m (n : Int), vs.length < n → c.Applied (.parser m (.count n p)) x w .failure w'
  some : vs ≠ [] → ∀ m,
    c.Applied (.parser m (.repeated 1 .asList p)) x w (.success (.list vs) left) w'
  none : vs = [] → ∀ m, c.Applied (.parser m (.repeated 1 .asList p)) x w .failure w'

section
variable {c} {p x left : Value} {w w' : Store} {vs : List Value}

theorem countsWithin (greatest : Greatest (c.Applied p) x w vs left w') {n : Int}
    (within : n ≤ vs.length) (mark : Mark) : ∃ rest v,
      c.Applied (.parser mark (.count n p)) x w (.success (.list (vs.take n.toNat)) rest) v := by
  obtain ⟨_, successes, -⟩ := greatest
  obtain ⟨rest, v, taken⟩ := successes.take n.toNat
  have counted := taken.counted appliedReadBy
  rw [List.length_take_of_le (by omega)] at counted
  exact ⟨rest, v, appliedCount counted mark⟩

theorem countsBeyond (greatest : Greatest (c.Applied p) x w vs left w') {n : Int}
    (beyond : vs.length < n) (mark : Mark) :
    c.Applied (.parser mark (.count n p)) x w .failure w' :=
  appliedCount (greatest.noMore appliedReadBy (by omega)) mark

theorem mostOften (greatest : Greatest (c.Applied p) x w vs left w') :
    c.MostOften p x w vs left w' where
  repeats m := appliedRepeated greatest m 0
  only m exit v run := Running.endsOnce run (appliedRepeated greatest m 0)
  counts m n := by
    refine ⟨fun ⟨a, rest, v, counted⟩ => Int.not_lt.mp fun beyond => ?_, fun within => ?_⟩
    · cases (counted.once (countsBeyond greatest beyond m)).1
    · obtain ⟨rest, v, counted⟩ := countsWithin greatest within m
      exact ⟨_, rest, v, counted⟩
  takes m n a rest v counted := by
    by_cases within : n ≤ vs.length
    · obtain ⟨_, _, taken⟩ := countsWithin greatest within m
      cases (counted.once taken).1
      rfl
    · cases (counted.once (countsBeyond greatest (Int.not_le.mp within) m)).1
  noMore m n beyond := countsBeyond greatest beyond m
  some some m := by
    have repeated := appliedRepeated greatest m 1
    rwa [if_neg (by have := List.length_pos_iff.mpr some; omega)] at repeated
  none none m := by
    subst none
    exact appliedRepeated greatest m 1

theorem repeatedIffCounted (advancing : Advancing (c.Applied p) x w) (m k : Mark) :
    c.Applied (.parser m (.repeated 0 .asList p)) x w (.success (.list vs) left) w' ↔
      ∃ u, c.Applied (.parser k (.count vs.length p)) x w (.success (.list vs) left) u ∧
        c.Applied p left u .failure w' := by
  constructor
  · intro repeated
    obtain ⟨_, _, _, greatest⟩ := advancing.greatest
    obtain ⟨same, rfl⟩ := repeated.once (appliedRepeated greatest m 0)
    cases same
    obtain ⟨u, successes, stops⟩ := greatest
    have counted := successes.counted appliedReadBy
    exact ⟨u, appliedCount (n := vs.length) counted k, stops⟩
  · rintro ⟨u, counted, stops⟩
    rcases Running.endsBind.mp ((c.countAgrees k vs.length p x _ _ _).mp counted) with
      ⟨o, v, run, last⟩ | ⟨_, _, raised⟩
    · obtain ⟨same, rfl⟩ := Running.endsOnce last Running.endsRet
      cases o with
      | failure => cases same
      | success ws rest =>
        cases same
        have greatest : Greatest (c.Applied p) x w vs left w' :=
          ⟨u, (advancing.counted appliedReadBy run).2, stops⟩
        exact appliedRepeated greatest m 0
    · cases raised

end

end Calling

/-- A repetition stops at the greatest count that succeeds, as long as successes shorten the text and
nothing raises. Each count gives as many of the same values, and fails where there are not enough. A
count is two smaller ones one after the other, whatever the parser does. -/
theorem repetitionIsGreatestCount (c : Calling) (p x : Value) :
    (∀ w, Advancing (c.Applied p) x w →
      (∀ m k vs left w',
        c.Applied (.parser m (.repeated 0 .asList p)) x w (.success (.list vs) left) w' ↔
          ∃ u, c.Applied (.parser k (.count vs.length p)) x w (.success (.list vs) left) u ∧
            c.Applied p left u .failure w') ∧
      ∃ vs left w', c.MostOften p x w vs left w') ∧
    ∀ h, (∀ vs ws, Agree (c.called h (.tuple [.list vs, .list ws])) (.ret (.list (vs ++ ws)))) →
      ∀ (m n : Nat) m₁ m₂ m₃ m₄ m₅, Agree (c.called (.parser m₁ (.count ↑(m + n) p)) x)
        (c.called (.parser m₂ (.map
          (.parser m₃ (.pair (.parser m₄ (.count m p)) (.parser m₅ (.count n p)))) h)) x) := by
  refine ⟨fun w advancing => ⟨fun m k _ _ _ => Calling.repeatedIffCounted advancing m k, ?_⟩,
    fun h joins m n => c.countsJoin joins m n p x⟩
  obtain ⟨vs, left, w', greatest⟩ := advancing.greatest
  exact ⟨vs, left, w', Calling.mostOften greatest⟩

theorem Agree.silent {α : Type} {x : Running α} {a : α} (limit : Nat)
    (run : ∀ w, x.within limit w = (.done a, w)) : Agree x (.ret a) := by
  intro w exit w'
  have done : x.Ends w (.done a) w := ⟨nofun, limit, run w⟩
  constructor
  · intro ends
    obtain ⟨rfl, rfl⟩ := Running.endsOnce done ends
    exact Running.endsRet
  · intro ends
    obtain ⟨rfl, rfl⟩ := Running.endsOnce Running.endsRet ends
    exact done

def joinPair : Value :=
  .lambda 0 ["both"] (.call (.builtin .add)
    [.call (.builtin .fst) [.var "both"] [], .call (.builtin .snd) [.var "both"] []] []) []

theorem joinPairJoins (vs ws : List Value) :
    Agree (Calling.script.called joinPair (.tuple [.list vs, .list ws])) (.ret (.list (vs ++ ws))) :=
  .silent 3 fun _ => rfl

def charA : Value := .parser (.made 1) (.char (.str ['a']))

theorem lettersCounted :
    Advancing (Calling.script.Applied charA) (.str ['a', 'a', 'b']) .empty ∧
    Calling.script.MostOften charA (.str ['a', 'a', 'b']) .empty [.str ['a'], .str ['a']]
      (.str ['b']) .empty ∧
    Agree (Calling.script.called (.parser (.made 2) (.count 3 charA)) (.str ['a', 'a', 'b']))
      (Calling.script.called (.parser (.made 3) (.map (.parser (.made 4) (.pair
        (.parser (.made 5) (.count 2 charA)) (.parser (.made 6) (.count 1 charA)))) joinPair))
        (.str ['a', 'a', 'b'])) := by
  have advancing : Advancing (Calling.script.Applied charA) (.str ['a', 'a', 'b']) .empty := by
    refine advancingOnTexts Calling.appliedReadBy (fun text w => ?_) _ _
    obtain ⟨o, applied, shorter⟩ := charBrief Calling.script (.made 1) 'a' text w
    exact ⟨o, w, applied, fun v rest same => (shorter v rest same).2⟩
  obtain ⟨greatest, counts⟩ :=
    repetitionIsGreatestCount Calling.script charA (.str ['a', 'a', 'b'])
  refine ⟨advancing, ?_, counts joinPair joinPairJoins 2 1 _ _ _ _ _⟩
  obtain ⟨-, vs, left, w', most⟩ := greatest .empty advancing
  have repeated : Calling.script.Applied (.parser (.made 2) (.repeated 0 .asList charA))
      (.str ['a', 'a', 'b']) .empty (.success (.list [.str ['a'], .str ['a']]) (.str ['b']))
      .empty := ⟨nofun, 3, by cbv⟩
  obtain ⟨same, rfl⟩ := repeated.once (most.repeats (.made 2))
  cases same
  exact most

end ParseKit.Script
