import ParseKit.Proofs.Termination

/-! How often a repetition applies its parsers. Applications are counted in a store beside the
one of the run, which changes nothing else. Main statement: parsers that show by their form that
they take something of the text do so, and a tree of parsers in which all that is repeated takes
something comes to an end on every text, no parser being applied by a repetition more often than
the text is long, but for one time. -/
namespace ParseKit
variable {σ ω κ α : Type}

def Eff.beside (x : Eff ω α) : Eff (ω × κ) α := fun s => ((x s.1).1, ((x s.1).2, s.2))

def Parser.counted (add : κ → κ) (p : Parser σ ω α) : Parser σ (ω × κ) α := fun input s =>
  ((p input s.1).1, ((p input s.1).2, add s.2))

namespace Script

structure Tally where
  operands : Nat
  others : Nat

def Tally.operand (k : Tally) : Tally := ⟨k.operands + 1, k.others⟩

def Tally.other (k : Tally) : Tally := ⟨k.operands, k.others + 1⟩

section
variable (limit : Nat)

def countOperand (p : Value) : Parser Value (Store × Tally) Value :=
  (read (apply limit) p).counted Tally.operand

def countSeparator (p : Value) : Value → Parser Value (Store × Tally) Value
  | .parser mark g => (read (apply limit) (.parser mark g)).counted Tally.other
  | v => (countOperand limit p).bind fun _ _ => Eff.raise (.lacks v.kind "map")

def giveCounted (p : Parser Value (Store × Tally) Value) (x : Value) : Eff (Store × Tally) Value :=
  return .ofOutcome (← p x)

def Grammar.tallied : Grammar → Value → Eff (Store × Tally) Value
  | repeated least collect p =>
    giveCounted ((Parser.repeated limit least (countOperand limit p)).mapM collect.apply)
  | sepBy p sep =>
    giveCounted ((Parser.sepByWithin limit (countOperand limit p)
      (countSeparator limit p sep)).map .list)
  | sepBy1 p sep =>
    giveCounted ((Parser.sepBy1Within limit (countOperand limit p)
      (countSeparator limit p sep)).map .list)
  | chainl1 p op =>
    giveCounted (((readParts (apply limit) p).counted Tally.operand).bind
      (Parser.chainAfter limit (countOperand limit p)
        (((readRest (apply limit) op).counted Tally.other).map
          fun f v w => Eff.beside (call limit f [v, w] []))))
  | g => fun x => Eff.beside (g.applyWith (apply limit) (call limit) limit x)

end

def Counts {α : Type} (x : Run α) (y : Eff (Store × Tally) α) (w : Store) (k : Tally)
    (post : Exit α → Store → Tally → Prop) : Prop :=
  ∃ exit v k', x w = (exit, v) ∧ y (w, k) = (exit, (v, k')) ∧ post exit v k'

namespace Counts
variable {α β : Type} {w : Store} {k : Tally}

theorem bind {x : Run α} {y : Eff (Store × Tally) α} {f : α → Run β}
    {g : α → Eff (Store × Tally) β} {mid : Exit α → Store → Tally → Prop}
    {post : Exit β → Store → Tally → Prop} (head : Counts x y w k mid)
    (tail : ∀ a v k', x w = (.done a, v) → mid (.done a) v k' → Counts (f a) (g a) v k' post)
    (raised : ∀ fault v k', mid (.raised fault) v k' → post (.raised fault) v k')
    (exhausted : ∀ v k', mid .exhausted v k' → post .exhausted v k') :
    Counts (x >>= f) (y >>= g) w k post := by
  obtain ⟨exit, v, k', plain, counted, held⟩ := head
  cases exit with
  | done a =>
    obtain ⟨exit, u, l, second, third, last⟩ := tail a v k' plain held
    have plain := (Eff.bindOfDone plain).trans second
    have counted := (Eff.bindOfDone counted).trans third
    exact ⟨exit, u, l, plain, counted, last⟩
  | raised fault =>
    have last := raised fault v k' held
    exact ⟨_, v, k', Eff.bindOfRaised plain, Eff.bindOfRaised counted, last⟩
  | exhausted =>
    have last := exhausted v k' held
    exact ⟨_, v, k', Eff.bindOfExhausted plain, Eff.bindOfExhausted counted, last⟩

theorem followed {x : Run α} {y : Eff (Store × Tally) α} {f : α → Run β}
    {g : α → Eff (Store × Tally) β} {post : Tally → Prop}
    (head : Counts x y w k fun _ _ => post)
    (tail : ∀ a v k', Counts (f a) (g a) v k' fun _ _ l => l = k') :
    Counts (x >>= f) (y >>= g) w k fun _ _ => post := by
  refine head.bind (fun a v k' _ held => ?_) (fun _ _ _ held => held) fun _ _ held => held
  obtain ⟨exit, u, l, plain, counted, rfl⟩ := tail a v k'
  exact ⟨exit, u, l, plain, counted, held⟩

theorem within {x : Run α} {y : Eff (Store × Tally) α} {strong post : Tally → Prop}
    (counts : Counts x y w k fun _ _ => strong) (implies : ∀ k', strong k' → post k') :
    Counts x y w k fun _ _ => post := by
  obtain ⟨exit, v, k', plain, counted, held⟩ := counts
  exact ⟨exit, v, k', plain, counted, implies k' held⟩

theorem beside (x : Run α) : Counts x x.beside w k fun exit v k' => x w = (exit, v) ∧ k' = k :=
  ⟨_, _, k, rfl, rfl, rfl, rfl⟩

theorem counted (add : Tally → Tally) (p : Parser Value Store α) (x : Value) :
    Counts (p x) (p.counted add x) w k fun exit v k' => p x w = (exit, v) ∧ k' = add k :=
  ⟨_, _, _, rfl, rfl, rfl, rfl⟩

theorem done (a : α) : Counts (pure a) (pure a) w k fun _ _ k' => k' = k :=
  ⟨_, _, k, rfl, rfl, rfl⟩

theorem collect (collect : Collect) (vs : List Value) :
    Counts (collect.apply vs) (collect.apply vs) w k fun _ _ k' => k' = k := by
  cases collect with
  | asList => exact done _
  | dropped => exact done _
  | joined =>
    simp only [Collect.apply, joinTexts]
    split
    · exact done _
    · exact ⟨_, _, k, rfl, rfl, rfl⟩

section
variable {p : Parser Value Store α} {q : Parser Value (Store × Tally) α} {x : Value}
  {post : Tally → Prop} (counts : Counts (p x) (q x) w k fun _ _ => post)
include counts

theorem mapM {f : α → Run β} {g : α → Eff (Store × Tally) β}
    (tail : ∀ a v k', Counts (f a) (g a) v k' fun _ _ l => l = k') :
    Counts (p.mapM f x) (q.mapM g x) w k fun _ _ => post := by
  refine counts.followed fun o v k' => ?_
  cases o with
  | failure => exact done _
  | success a rest => exact (tail a v k').followed fun _ _ _ => done _

theorem map (f : α → β) : Counts (p.map f x) (q.map f x) w k fun _ _ => post :=
  mapM counts fun _ _ _ => done _

end

theorem give {p : Parser Value Store Value} {q : Parser Value (Store × Tally) Value} {x : Value}
    {post : Tally → Prop} (counts : Counts (p x) (q x) w k fun _ _ => post) :
    Counts (Script.give p x) (giveCounted q x) w k fun _ _ => post :=
  counts.followed fun _ _ _ => done _

end Counts

def Spent (slack : Nat) (text : Text) (k k' : Tally) : Prop :=
  k'.operands ≤ k.operands + text.length + slack ∧ k'.others ≤ k.others + text.length + 1

structure Round {α : Type} (I : Invariant) (slack : Nat) (text : Text) (k : Tally)
    (exit : Exit (Outcome Value α)) (v : Store) (k' : Tally) : Prop where
  once : k'.operands ≤ k.operands + 1
  within : k'.operands ≤ k.operands + text.length + slack
  others : k'.others ≤ k.others + 1
  shorter : ∀ a rest, exit = .done (.success a rest) → I.holds v ∧ rest.ShorterThan text

section
variable {I : Invariant} {α : Type} {slack : Nat} {text : Text} {k k' : Tally} {v : Store}

theorem Round.spent {exit : Exit (Outcome Value α)} (round : Round I slack text k exit v k') :
    Spent slack text k k' := by
  have within := round.within
  have others := round.others
  exact ⟨within, by omega⟩

theorem Round.next {a : α} {rest : Text} {l : Tally}
    (round : Round I slack text k (.done (.success a (.str rest))) v k')
    (spent : Spent slack rest k' l) : Spent slack text k l := by
  obtain ⟨-, remaining, same, less⟩ := round.shorter a _ rfl
  cases same
  obtain ⟨operands, others⟩ := spent
  have once := round.once
  have one := round.others
  exact ⟨by omega, by omega⟩

end

def CountsRounds {α : Type} (I : Invariant) (slack : Nat) (p : Parser Value Store α)
    (q : Parser Value (Store × Tally) α) : Prop :=
  ∀ text w k, I.holds w → Counts (p (.str text)) (q (.str text)) w k (Round I slack text k)

section
variable {I : Invariant} {α β : Type} {slack : Nat}

theorem CountsRounds.map {p : Parser Value Store α} {q : Parser Value (Store × Tally) α}
    (rounds : CountsRounds I slack p q) (f : α → β) : CountsRounds I slack (p.map f) (q.map f) := by
  intro text w k start
  refine (rounds text w k start).bind (fun o v k' _ round => ?_)
    (fun _ _ _ round => ⟨round.once, round.within, round.others, nofun⟩)
    fun _ _ round => ⟨round.once, round.within, round.others, nofun⟩
  cases o with
  | failure => exact ⟨_, _, _, rfl, rfl, round.once, round.within, round.others, nofun⟩
  | success a rest =>
    refine ⟨_, _, _, rfl, rfl, round.once, round.within, round.others, fun b more same => ?_⟩
    cases same
    exact round.shorter a rest rfl

section
variable {p : Parser Value Store α} {q : Parser Value (Store × Tally) α}
  (rounds : CountsRounds I slack p q)
include rounds

theorem repeatRoundCounts (limit : Nat)
    (again : ∀ seen text w k, I.holds w → Counts (repeatAgain p limit seen (.str text))
      (repeatAgain q limit seen (.str text)) w k fun _ _ k' => Spent slack text k k')
    (seen : List α) (text : Text) (w : Store) (k : Tally) (start : I.holds w) :
    Counts (p.repeatFrom limit seen (.str text)) (q.repeatFrom limit seen (.str text)) w k
      fun _ _ k' => Spent slack text k k' := by
  rw [repeatRound, repeatRound]
  refine (rounds text w k start).bind (fun o v k' _ round => ?_)
    (fun _ _ _ round => round.spent) fun _ _ round => round.spent
  cases o with
  | failure => exact ⟨_, _, _, rfl, rfl, round.spent⟩
  | success a rest =>
    obtain ⟨kept, remaining, rfl, less⟩ := round.shorter a rest rfl
    obtain ⟨exit, u, l, plain, counted, spent⟩ := again (a :: seen) remaining v k' kept
    exact ⟨exit, u, l, plain, counted, round.next spent⟩

theorem repeatFromCounts (limit : Nat) (seen : List α) (text : Text) (w : Store) (k : Tally)
    (start : I.holds w) :
    Counts (p.repeatFrom limit seen (.str text)) (q.repeatFrom limit seen (.str text)) w k
      fun _ _ k' => Spent slack text k k' := by
  induction limit generalizing seen text w k with
  | zero =>
    refine repeatRoundCounts rounds 0 (fun _ text w k _ => ?_) seen text w k start
    exact ⟨_, _, _, rfl, rfl, by unfold Spent; omega⟩
  | succ limit ih => exact repeatRoundCounts rounds (limit + 1) ih seen text w k start

theorem repeatedCounts (limit least : Nat) (text : Text) (w : Store) (k : Tally)
    (start : I.holds w) :
    Counts (p.repeated limit least (.str text)) (q.repeated limit least (.str text)) w k
      fun _ _ k' => Spent slack text k k' := by
  refine (repeatFromCounts rounds limit [] text w k start).followed fun r v k' => ?_
  dsimp only
  split
  · exact .done _
  · exact .done _

end

section
variable {ι : Type} {p : Parser Value Store α} {p' : Parser Value (Store × Tally) α}
  {op : Parser Value Store ι} {op' : Parser Value (Store × Tally) ι} {f : ι → α → α → Run α}
  (rounds : CountsRounds I slack (op.pair p) (op'.pair p'))
  (calls : ∀ text w i right rest v, I.holds w →
    op.pair p (.str text) w = (.done (.success (i, right) rest), v) → I.holds v →
      ∀ x a u, f i x right v = (.done a, u) → I.holds u)
include rounds calls

theorem chainRoundCounts (limit : Nat)
    (again : ∀ value text w k, I.holds w → Counts (chainAgain p (op.map f) limit value (.str text))
      (chainAgain p' (op'.map fun i x y => (f i x y).beside) limit value (.str text)) w k
      fun _ _ k' => Spent slack text k k')
    (value : α) (text : Text) (w : Store) (k : Tally) (start : I.holds w) :
    Counts (p.chainFrom (op.map f) limit value (.str text))
      (p'.chainFrom (op'.map fun i x y => (f i x y).beside) limit value (.str text)) w k
      fun _ _ k' => Spent slack text k k' := by
  rw [chainRound, chainRound]
  refine (rounds text w k start).bind (fun o v k' run round => ?_)
    (fun _ _ _ round => round.spent) fun _ _ round => round.spent
  cases o with
  | failure => exact ⟨_, _, _, rfl, rfl, round.spent⟩
  | success a rest =>
    obtain ⟨i, right⟩ := a
    obtain ⟨kept, remaining, rfl, less⟩ := round.shorter _ rest rfl
    have called := Counts.beside (k := k') (f i value right) (w := v)
    refine called.bind (fun value u l _ held => ?_) (fun _ _ _ held => ?_) fun _ _ held => ?_
    · obtain ⟨done, rfl⟩ := held
      have kept := calls text w i right _ v start run kept _ value u done
      obtain ⟨exit, t, m, plain, counted, spent⟩ := again value remaining u _ kept
      exact ⟨exit, t, m, plain, counted, round.next spent⟩
    · rw [held.2]
      exact round.spent
    · rw [held.2]
      exact round.spent

theorem chainFromCounts (limit : Nat) (value : α) (text : Text) (w : Store) (k : Tally)
    (start : I.holds w) :
    Counts (p.chainFrom (op.map f) limit value (.str text))
      (p'.chainFrom (op'.map fun i x y => (f i x y).beside) limit value (.str text)) w k
      fun _ _ k' => Spent slack text k k' := by
  induction limit generalizing value text w k with
  | zero =>
    refine chainRoundCounts rounds calls 0 (fun _ text w k _ => ?_) value text w k start
    exact ⟨_, _, _, rfl, rfl, by unfold Spent; omega⟩
  | succ limit ih => exact chainRoundCounts rounds calls (limit + 1) ih value text w k start

end

def Advances (I : Invariant) (least : Nat) (p : Parser Value Store α) : Prop :=
  ∀ text w a rest v, I.holds w → p (.str text) w = (.done (.success a rest), v) →
    I.holds v ∧ ∃ remaining, rest = .str remaining ∧ remaining.length + least ≤ text.length

section
variable {ι : Type} {p : Parser Value Store α} {op : Parser Value Store ι} {least : Nat}
  (operand : Advances I slack p) (operator : Advances I least op) (some : 1 ≤ slack + least)
include operand operator some

theorem pairCounts :
    CountsRounds I slack (op.pair p) ((op.counted Tally.other).pair (p.counted Tally.operand)) := by
  intro text w k start
  rw [pairBind, pairBind]
  have unfinished : ∀ {exit : Exit (Outcome Value (ι × α))} {v : Store},
      (∀ a rest, exit ≠ .done (.success a rest)) → Round I slack text k exit v k.other :=
    fun failing => ⟨Nat.le_succ _, by simp [Tally.other]; omega, Nat.le_refl _,
      fun a rest same => absurd same (failing a rest)⟩
  have first : Counts (op (.str text)) _ w k _ := Counts.counted Tally.other op (.str text)
  refine first.bind (fun o v l run held => ?_) (fun _ _ _ held => ?_) fun _ _ held => ?_
  · obtain ⟨-, rfl⟩ := held
    cases o with
    | failure => exact ⟨_, _, _, rfl, rfl, unfinished nofun⟩
    | success i rest =>
      obtain ⟨kept, front, rfl, shorter⟩ := operator text w i rest v start run
      have both : ∀ {exit : Exit (Outcome Value (ι × α))} {u : Store},
          (∀ a rest, exit = .done (.success a rest) → I.holds u ∧ rest.ShorterThan text) →
            Round I slack text k exit u k.other.operand := fun succeeding =>
        ⟨Nat.le_refl _, by simp [Tally.other, Tally.operand]; omega, Nat.le_refl _, succeeding⟩
      have second : Counts (p (.str front)) _ v _ _ :=
        Counts.counted (k := k.other) Tally.operand p (.str front)
      refine second.bind (fun o u l run held => ?_) (fun _ _ _ held => ?_) fun _ _ held => ?_
      · obtain ⟨-, rfl⟩ := held
        cases o with
        | failure => exact ⟨_, _, _, rfl, rfl, both nofun⟩
        | success a rest =>
          obtain ⟨kept, remaining, rfl, less⟩ := operand front v a rest u kept run
          refine ⟨_, _, _, rfl, rfl, both fun b more same => ?_⟩
          cases same
          exact ⟨kept, remaining, rfl, by omega⟩
      · rw [held.2]
        exact both nofun
      · rw [held.2]
        exact both nofun
  · rw [held.2]
    exact unfinished nofun
  · rw [held.2]
    exact unfinished nofun

end

theorem keepRightPair {σ ω : Type} (a : Parser σ ω α) (b : Parser σ ω β) :
    a.keepRight b = (a.pair b).map Prod.snd := by
  rw [pairBind]
  funext input
  refine Eq.trans (bind_congr fun o => ?_) (Eff.bindAssoc (a input) _ _).symm
  cases o with
  | failure => rfl
  | success x rest =>
    refine Eq.trans ?_ (Eff.bindAssoc (b rest) _ _).symm
    refine Eq.trans (Eff.bindDone (b rest)).symm (bind_congr fun o => ?_)
    cases o <;> rfl

theorem soleCounts {p : Parser Value Store α} (operand : Advances I 1 p) :
    CountsRounds I 1 p (p.counted Tally.operand) := by
  intro text w k start
  refine ⟨_, _, _, rfl, rfl, Nat.le_refl _, ?_, Nat.le_succ _, fun a rest same => ?_⟩
  · simp [Tally.operand]
  · obtain ⟨kept, remaining, rfl, less⟩ := operand text w a rest _ start (Prod.ext same rfl)
    exact ⟨kept, remaining, rfl, by omega⟩

end

section
variable {I : Invariant} {p : Value} (tree : Tree I p)
include tree

theorem treeGives {limit : Nat} {text : Text} {w v : Store} {r : Value} (start : I.holds w)
    (run : apply limit p (.str text) w = (.done r, v)) :
    I.holds v ∧ ∃ n, applyParser n p (.str text) w = (.done r, v) := by
  obtain ⟨n, exit, u, other, ended, kept⟩ := treeApplies tree text w start
  have first := (applyParserBelow n p (.str text)).ends other ended
  have left := (applyBelow (Nat.le_max_left n limit) p (.str text)).ends first ended
  have right := (applyBelow (Nat.le_max_right n limit) p (.str text)).ends run nofun
  cases left.symm.trans right
  exact ⟨kept, n, other⟩

theorem readByAdvances {view : Value → Except Fault (Outcome Value Value)}
    (failing : view .failure = .ok .failure)
    (succeeding : ∀ a rest, view (.success a rest) = .ok (.success a rest)) (limit least : Nat)
    (consuming : least = 0 ∨ least = 1 ∧ Consuming p) :
    Advances I least (readBy (apply limit) view p) := by
  intro text w a rest v start run
  obtain ⟨r, u, applied, viewed⟩ := Eff.bindDoneIff.mp run
  obtain ⟨kept, n, other⟩ := treeGives tree start applied
  have inside := applyParserLeaves n p (.str text) w r u other
  cases r with
  | failure =>
    rw [failing] at viewed
    cases viewed
  | success b more =>
    rw [succeeding] at viewed
    cases viewed
    rcases consuming with rfl | ⟨rfl, consuming⟩
    · obtain ⟨remaining, rfl, suffix⟩ := inside text rfl
      exact ⟨kept, remaining, rfl, suffix.length_le⟩
    · obtain ⟨remaining, rfl, less⟩ := consumingTakes consuming n text w _ _ other
      exact ⟨kept, remaining, rfl, less⟩
  | _ => exact inside.elim

theorem readAdvances (limit least : Nat) (consuming : least = 0 ∨ least = 1 ∧ Consuming p) :
    Advances I least (read (apply limit) p) :=
  readByAdvances tree rfl (fun _ _ => rfl) limit least consuming

theorem readRestAdvances (limit least : Nat) (consuming : least = 0 ∨ least = 1 ∧ Consuming p) :
    Advances I least (readRest (apply limit) p) :=
  readByAdvances tree rfl (fun _ _ => rfl) limit least consuming

theorem readPartsAdvances (limit least : Nat) (consuming : least = 0 ∨ least = 1 ∧ Consuming p) :
    Advances I least (readParts (apply limit) p) :=
  readByAdvances tree rfl (fun _ _ => rfl) limit least consuming

end

def Tally.AtMost (bound : Nat) (k : Tally) : Prop := k.operands ≤ bound ∧ k.others ≤ bound

theorem Spent.atMost {slack : Nat} {text remaining : Text} {k : Tally}
    (spent : Spent slack remaining ⟨1, 0⟩ k) (less : remaining.length + slack ≤ text.length) :
    k.AtMost (text.length + 1) := by
  obtain ⟨operands, others⟩ := spent
  dsimp only at operands others
  exact ⟨by omega, by omega⟩

section
variable {I : Invariant} {p q : Value} (operand : Tree I p) (other : Tree I q)

def refused {ω : Type} (fault : Fault) : Value → Parser Value ω Value := fun _ _ => Eff.raise fault

theorem refusedRounds (limit : Nat) (f : Value → Parser Value Store Value)
    (g : Value → Parser Value (Store × Tally) Value) (fault : Fault) :
    CountsRounds I 1 (((read (apply limit) p).bind (refused fault)).bind f)
      (((countOperand limit p).bind (refused fault)).bind g) := by
  intro text w k start
  have counted : ∀ {exit : Exit (Outcome Value Value)} {v : Store},
      (∀ a rest, exit ≠ .done (.success a rest)) → Round I 1 text k exit v k.operand :=
    fun failing => ⟨Nat.le_refl _, by simp [Tally.operand], Nat.le_succ _,
      fun a rest same => absurd same (failing a rest)⟩
  rw [Parser.bindAssoc, Parser.bindAssoc]
  have first := Counts.counted (w := w) (k := k) Tally.operand (read (apply limit) p) (.str text)
  refine first.bind (fun o v l _ held => ?_) (fun _ _ _ held => ?_) fun _ _ held => ?_
  · rw [held.2]
    cases o with
    | failure => exact ⟨_, _, _, rfl, rfl, counted nofun⟩
    | success a rest => exact ⟨_, _, _, rfl, rfl, counted nofun⟩
  · rw [held.2]
    exact counted nofun
  · rw [held.2]
    exact counted nofun

theorem operatorKeeps {limit : Nat} (functions : (Grammar.chainl1 p q).FunctionsEnd I)
    (text : Text) (w : Store) (i right rest : Value) (v : Store) (start : I.holds w)
    (run : (readRest (apply limit) q).pair (read (apply limit) p) (.str text) w =
      (.done (.success (i, right) rest), v)) (kept : I.holds v) (x a : Value) (u : Store)
    (called : call limit i [x, right] [] v = (.done a, u)) : I.holds u := by
  obtain ⟨front, t, operators⟩ := pairFirst run
  have settled := functions limit text w i front t start (readRestDone operators) [x, right] v rfl kept
  exact settled.keeps (callGrows i [x, right]) called nofun

include operand other

theorem separatorRounds (limit : Nat) (either : Consuming p ∨ Consuming q) :
    ∃ slack, (slack = 0 ∨ slack = 1 ∧ Consuming p) ∧ CountsRounds I slack
      ((separator (apply limit) p q).keepRight (read (apply limit) p))
      ((countSeparator limit p q).keepRight (countOperand limit p)) := by
  cases q with
  | parser mark g =>
    rcases either with consuming | consuming
    · have reads := readAdvances operand limit 1 (.inr ⟨rfl, consuming⟩)
      have rounds := pairCounts reads (readAdvances other limit 0 (.inl rfl)) (by decide)
      refine ⟨1, .inr ⟨rfl, consuming⟩, ?_⟩
      rw [keepRightPair, keepRightPair]
      exact rounds.map Prod.snd
    · have reads := readAdvances other limit 1 (.inr ⟨rfl, consuming⟩)
      have rounds := pairCounts (readAdvances operand limit 0 (.inl rfl)) reads (by decide)
      refine ⟨0, .inl rfl, ?_⟩
      rw [keepRightPair, keepRightPair]
      exact rounds.map Prod.snd
  | _ =>
    rcases either with consuming | consuming
    · exact ⟨1, .inr ⟨rfl, consuming⟩, refusedRounds limit _ _ _⟩
    · cases consuming

theorem sepBy1Counts (limit : Nat) (either : Consuming p ∨ Consuming q) (text : Text) (w : Store)
    (start : I.holds w) :
    Counts (Parser.sepBy1Within limit (read (apply limit) p) (separator (apply limit) p q) (.str text))
      (Parser.sepBy1Within limit (countOperand limit p) (countSeparator limit p q) (.str text))
      w ⟨0, 0⟩ fun _ _ k => k.AtMost (text.length + 1) := by
  obtain ⟨slack, consuming, rounds⟩ := separatorRounds operand other limit either
  have reads := readAdvances operand limit slack consuming
  have first := Counts.counted (w := w) (k := ⟨0, 0⟩) Tally.operand (read (apply limit) p) (.str text)
  have one : Tally.AtMost (text.length + 1) ⟨1, 0⟩ := by simp [Tally.AtMost]
  refine first.bind (fun o v l run held => ?_) (fun _ _ _ held => held.2 ▸ one) fun _ _ held =>
    held.2 ▸ one
  rw [held.2]
  cases o with
  | failure => exact ⟨_, _, _, rfl, rfl, one⟩
  | success x rest =>
    obtain ⟨kept, remaining, rfl, less⟩ := reads text w x rest v start run
    have loop := repeatedCounts rounds limit 0 remaining v ⟨1, 0⟩ kept
    refine (loop.within fun k spent => spent.atMost less).followed fun o _ _ => ?_
    cases o with
    | failure => exact .done _
    | success xs rest => exact .done _

theorem chainCounts (limit : Nat) (either : Consuming p ∨ Consuming q)
    (functions : (Grammar.chainl1 p q).FunctionsEnd I) (text : Text) (w : Store)
    (start : I.holds w) :
    Counts (((readParts (apply limit) p).bind (Parser.chainAfter limit (read (apply limit) p)
        ((readRest (apply limit) q).map fun f v w => call limit f [v, w] []))) (.str text))
      ((((readParts (apply limit) p).counted Tally.operand).bind
        (Parser.chainAfter limit (countOperand limit p)
          (((readRest (apply limit) q).counted Tally.other).map
            fun f v w => Eff.beside (call limit f [v, w] [])))) (.str text))
      w ⟨0, 0⟩ fun _ _ k => k.AtMost (text.length + 1) := by
  obtain ⟨slack, consuming, rounds⟩ : ∃ slack, (slack = 0 ∨ slack = 1 ∧ Consuming p) ∧
      CountsRounds I slack ((readRest (apply limit) q).pair (read (apply limit) p))
        (((readRest (apply limit) q).counted Tally.other).pair (countOperand limit p)) := by
    rcases either with consuming | consuming
    · have reads := readAdvances operand limit 1 (.inr ⟨rfl, consuming⟩)
      have rounds := pairCounts reads (readRestAdvances other limit 0 (.inl rfl)) (by decide)
      exact ⟨1, .inr ⟨rfl, consuming⟩, rounds⟩
    · have reads := readRestAdvances other limit 1 (.inr ⟨rfl, consuming⟩)
      have rounds := pairCounts (readAdvances operand limit 0 (.inl rfl)) reads (by decide)
      exact ⟨0, .inl rfl, rounds⟩
  have reads := readPartsAdvances operand limit slack consuming
  have first := Counts.counted (w := w) (k := ⟨0, 0⟩) Tally.operand
    (readParts (apply limit) p) (.str text)
  have one : Tally.AtMost (text.length + 1) ⟨1, 0⟩ := by simp [Tally.AtMost]
  refine first.bind (fun o v l run held => ?_) (fun _ _ _ held => held.2 ▸ one) fun _ _ held =>
    held.2 ▸ one
  rw [held.2]
  cases o with
  | failure => exact ⟨_, _, _, rfl, rfl, one⟩
  | success x rest =>
    obtain ⟨kept, remaining, rfl, less⟩ := reads text w x rest v start run
    have loop := chainFromCounts rounds (operatorKeeps functions) limit x remaining v ⟨1, 0⟩ kept
    exact (loop.within fun k spent => spent.atMost less).followed fun _ _ _ => .done _

end

theorem talliedCounts {I : Invariant} {mark : Mark} {g : Grammar} (tree : Tree I (.parser mark g))
    (limit : Nat) (text : Text) (w : Store) (start : I.holds w) :
    Counts (apply (limit + 1) (.parser mark g) (.str text)) (g.tallied limit (.str text)) w ⟨0, 0⟩
      fun _ _ k => k.AtMost (text.length + 1) := by
  have none : Tally.AtMost (text.length + 1) ⟨0, 0⟩ := by simp [Tally.AtMost]
  cases tree with
  | other plain => cases plain
  | node plain functions rounds operands returned =>
    change Counts (g.applyWith (apply limit) (call limit) limit (.str text)) _ w _ _
    cases g with
    | repeated least collect p =>
      have reads := readAdvances (operands p List.mem_cons_self) limit 1 (.inr ⟨rfl, rounds⟩)
      have loop := repeatedCounts (soleCounts reads) limit least text w ⟨0, 0⟩ start
      refine Counts.give ((loop.within fun k spent => ?_).mapM fun vs _ _ => .collect collect vs)
      obtain ⟨once, others⟩ := spent
      dsimp only at once others
      exact ⟨by omega, by omega⟩
    | sepBy p sep =>
      have separates := operands sep (by simp [Grammar.operands])
      have list := sepBy1Counts (operands p List.mem_cons_self) separates limit rounds text w start
      refine Counts.give (Counts.map (list.followed fun o _ _ => ?_) _)
      cases o with
      | failure => exact .done _
      | success xs rest => exact .done _
    | sepBy1 p sep =>
      have separates := operands sep (by simp [Grammar.operands])
      have list := sepBy1Counts (operands p List.mem_cons_self) separates limit rounds text w start
      exact Counts.give (list.map _)
    | chainl1 p op =>
      have operator := operands op (by simp [Grammar.operands])
      have chain := chainCounts (operands p List.mem_cons_self) operator limit rounds functions
        text w start
      exact Counts.give chain
    | _ => exact ⟨_, _, _, rfl, rfl, none⟩

theorem consumingTreesEnd :
    (∀ limit p text w a rest v, Consuming p → OnlyParsers limit p (.str text) w →
      apply limit p (.str text) w = (.done (.success a rest), v) → rest.ShorterThan text) ∧
    ∀ I p text w, Tree I p → I.holds w →
      (∃ limit, (apply limit p (.str text) w).1 ≠ .exhausted) ∧
      ∀ mark g limit, p = .parser mark g → ∃ exit v k,
        apply (limit + 1) p (.str text) w = (exit, v) ∧
        g.tallied limit (.str text) (w, ⟨0, 0⟩) = (exit, (v, k)) ∧
        k.operands ≤ text.length + 1 ∧ k.others ≤ text.length + 1 := by
  constructor
  · intro limit p text w a rest v consuming only run
    exact consumingTakes consuming limit text w _ v (only.trans run)
  · intro I p text w tree start
    obtain ⟨n, exit, v, run, ended, -⟩ := treeApplies tree text w start
    have run := (applyParserBelow n p (.str text)).ends run ended
    constructor
    · exact ⟨n, run ▸ ended⟩
    · intro mark g limit same
      subst same
      exact talliedCounts tree limit text w start

def letterA : Value := .parser (.made 0) (.char (.str ['a']))

def comma : Value := .parser (.made 1) (.char (.str [',']))

def commas : Value := .parser (.made 2) (.sepBy1 letterA comma)

def always : Invariant := ⟨fun _ => True, fun _ _ _ => trivial⟩

theorem childlessTree {mark : Mark} {g : Grammar} (functions : g.FunctionsEnd always)
    (rounds : g.RoundsConsume) (plain : g.isPlain = true) (childless : g.operands = []) :
    Tree always (.parser mark g) := by
  refine .node plain functions rounds (fun p member => ?_) fun p f _ _ _ _ _ same => ?_
  · rw [childless] at member
    cases member
  · subst same
    cases childless

theorem commasTree : Tree always commas := by
  refine .node rfl trivial (.inl (.one rfl)) (fun p member => ?_) fun p f _ _ _ _ _ same => ?_
  · simp only [Grammar.operands, List.mem_cons, List.not_mem_nil, or_false] at member
    rcases member with rfl | rfl
    · exact childlessTree trivial trivial rfl rfl
    · exact childlessTree trivial trivial rfl rfl
  · cases same

theorem commasEnd :
    (∃ limit, (apply limit commas (.str ['a', ',', 'a', ',']) .empty).1 ≠ .exhausted) ∧
    (∃ exit v k, apply 9 commas (.str ['a', ',', 'a', ',']) .empty = (exit, v) ∧
      (Grammar.sepBy1 letterA comma).tallied 8 (.str ['a', ',', 'a', ',']) (.empty, ⟨0, 0⟩) =
        (exit, (v, k)) ∧
      k.operands ≤ 5 ∧ k.others ≤ 5) ∧
    (Value.str [',']).ShorterThan ['a', ',', 'a', ','] := by
  obtain ⟨shorter, ends⟩ := consumingTreesEnd
  obtain ⟨ended, counts⟩ := ends always commas ['a', ',', 'a', ','] .empty commasTree trivial
  refine ⟨ended, counts _ _ 8 rfl, ?_⟩
  have consuming : Consuming commas := .part List.mem_cons_self (.one rfl)
  have only : OnlyParsers 9 commas (.str ['a', ',', 'a', ',']) .empty := rfl
  exact shorter 9 commas ['a', ',', 'a', ','] .empty
    (.list [.str ['a'], .str ['a']]) (.str [',']) .empty consuming only (by cbv)

end Script
end ParseKit
