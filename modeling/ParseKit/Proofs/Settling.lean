import ParseKit.Proofs.Consumption

/-! Runs that come to an end. A run is followed through all limits at once: it settles where some
limit lets it end, and larger ones then answer alike. Parsers that settle on every text are closed
under all combinators; repetitions and chains need rounds that shorten the text. -/
namespace ParseKit.Script
open Eff (Below)
open ParseKit.Parser (Leaves)

section
variable {σ ω α ι : Type}

def repeatAgain (p : Parser σ ω α) : Nat → List α → σ → Eff ω (List α × σ)
  | 0 => fun _ _ => Eff.exhausted
  | limit + 1 => Parser.repeatFrom p limit

def repeatRest (p : Parser σ ω α) (limit : Nat) (seen : List α) (x : σ) :
    Outcome σ α → Eff ω (List α × σ)
  | .failure => pure (seen.reverse, x)
  | .success v rest => repeatAgain p limit (v :: seen) rest

theorem repeatRound (p : Parser σ ω α) (limit : Nat) (seen : List α) (x : σ) :
    Parser.repeatFrom p limit seen x = p x >>= repeatRest p limit seen x := by
  conv => lhs; unfold Parser.repeatFrom
  refine bind_congr fun o => ?_
  cases o with
  | failure => rfl
  | success v rest => cases limit <;> rfl

def chainAgain (p : Parser σ ω α) (op : Parser σ ω (α → α → Eff ω α)) :
    Nat → α → σ → Eff ω (α × σ)
  | 0 => fun _ _ => Eff.exhausted
  | limit + 1 => Parser.chainFrom p op limit

def chainRest (p : Parser σ ω α) (op : Parser σ ω ι) (f : ι → α → α → Eff ω α) (limit : Nat)
    (value : α) (x : σ) : Outcome σ (ι × α) → Eff ω (α × σ)
  | .failure => pure (value, x)
  | .success v rest =>
    f v.1 value v.2 >>= fun value => chainAgain p (op.map f) limit value rest

theorem chainRound (p : Parser σ ω α) (op : Parser σ ω ι) (f : ι → α → α → Eff ω α)
    (limit : Nat) (value : α) (x : σ) :
    Parser.chainFrom p (op.map f) limit value x =
      op.pair p x >>= chainRest p op f limit value x := by
  conv => lhs; unfold Parser.chainFrom
  rw [Parser.mapBind]
  refine Eq.trans (bind_congr fun o => ?_) (Eff.bindAssoc (op x) _ _).symm
  cases o with
  | failure => rfl
  | success i rest =>
    refine Eq.trans (bind_congr fun o => ?_) (Eff.bindAssoc (p rest) _ _).symm
    cases o with
    | failure => rfl
    | success right rest => cases limit <;> rfl

theorem pairFirst {a : Parser σ ω α} {b : Parser σ ω ι} {x rest : σ} {v : α × ι} {w u : ω}
    (run : a.pair b x w = (.done (.success v rest), u)) :
    ∃ front t, a x w = (.done (.success v.1 front), t) := by
  rw [pairBind] at run
  obtain ⟨o, t, first, run⟩ := Eff.bindDoneIff.mp run
  cases o with
  | failure => cases run
  | success y front =>
    obtain ⟨o, s, second, run⟩ := Eff.bindDoneIff.mp run
    cases o with
    | failure => cases run
    | success z rest =>
      cases run
      exact ⟨front, t, first⟩

end

/- What is meant to hold of the store between the steps of a run. Putting down records, which
parsers do by themselves, does not break it. -/
structure Invariant where
  holds : Store → Prop
  records : ∀ r w, holds w → holds (Journal.add r w)

section
variable (I : Invariant) {α β γ : Type}

def Settles (x : Nat → Run α) (w : Store) : Prop :=
  ∃ n exit w', x n w = (exit, w') ∧ exit ≠ .exhausted ∧ I.holds w'

def Grows (x : Nat → Run α) : Prop := ∀ m n, m ≤ n → Below (x m) (x n)

variable {I}

theorem Grows.bind {x : Nat → Run α} {f : Nat → α → Run β} (head : Grows x)
    (tail : ∀ a, Grows fun n => f n a) : Grows fun n => x n >>= f n := fun m n le =>
  (head m n le).bind fun a => tail a m n le

theorem Grows.const (x : Run α) : Grows fun _ => x := fun _ _ _ => .refl x

theorem Grows.later {x : Nat → Run α} (grows : Grows x) {m n : Nat} (le : m ≤ n) {w w' : Store}
    {exit : Exit α} (run : x m w = (exit, w')) (ended : exit ≠ .exhausted) : x n w = (exit, w') :=
  (grows m n le).ends run ended

namespace Settles

theorem bind {x : Nat → Run α} {f : Nat → α → Run β} {w : Store} (grows : Grows x)
    (tails : ∀ a, Grows fun n => f n a) (head : Settles I x w)
    (tail : ∀ n a v, x n w = (.done a, v) → I.holds v → Settles I (fun n => f n a) v) :
    Settles I (fun n => x n >>= f n) w := by
  obtain ⟨m, exit, v, first, ended, kept⟩ := head
  cases exit with
  | exhausted => exact absurd rfl ended
  | raised fault => exact ⟨m, .raised fault, v, Eff.bindOfRaised first, nofun, kept⟩
  | done a =>
    obtain ⟨n, exit, w', last, ended, kept⟩ := tail m a v first kept
    have first := grows.later (Nat.le_max_left m n) first nofun
    have last := (tails a).later (Nat.le_max_right m n) last ended
    exact ⟨max m n, exit, w', (Eff.bindOfDone first).trans last, ended, kept⟩

theorem done (a : α) {w : Store} (kept : I.holds w) :
    Settles I (fun _ => (Eff.done a : Run α)) w :=
  ⟨0, .done a, w, rfl, nofun, kept⟩

theorem raise (fault : Fault) {w : Store} (kept : I.holds w) :
    Settles I (fun _ => (Eff.raise fault : Run α)) w :=
  ⟨0, .raised fault, w, rfl, nofun, kept⟩

theorem ofExcept (r : Except Fault α) {w : Store} (kept : I.holds w) :
    Settles I (fun _ => (Eff.ofExcept r : Run α)) w := by
  cases r with
  | ok a => exact done a kept
  | error fault => exact raise fault kept

theorem next {x : Nat → Run α} {w : Store} (settled : Settles I (fun n => x (n + 1)) w) :
    Settles I x w := by
  obtain ⟨n, exit, w', run, ended, kept⟩ := settled
  exact ⟨n + 1, exit, w', run, ended, kept⟩

theorem mono {x y : Nat → Run α} {w : Store} (below : ∀ n, Below (x n) (y n))
    (settled : Settles I x w) : Settles I y w := by
  obtain ⟨n, exit, w', run, ended, kept⟩ := settled
  exact ⟨n, exit, w', (below n).ends run ended, ended, kept⟩

theorem keeps {x : Nat → Run α} {w v : Store} {n : Nat} {exit : Exit α} (settled : Settles I x w)
    (grows : Grows x) (run : x n w = (exit, v)) (ended : exit ≠ .exhausted) : I.holds v := by
  obtain ⟨m, exit', w', other, ended', kept⟩ := settled
  have first := grows.later (Nat.le_max_left n m) run ended
  have second := grows.later (Nat.le_max_right n m) other ended'
  cases first.symm.trans second
  exact kept

end Settles

structure Total (I : Invariant) (p : Nat → Parser Value Store α) : Prop where
  grows : ∀ {m n}, m ≤ n → Parser.Below (p m) (p n)
  leaves : ∀ n, Leaves textSuffix (p n)
  settles : ∀ text w, I.holds w → Settles I (fun n => p n (.str text)) w

namespace Total

theorem growsAt {p : Nat → Parser Value Store α} (total : Total I p) (x : Value) :
    Grows fun n => p n x := fun _ _ le => total.grows le x

theorem follow {p : Nat → Parser Value Store α} (total : Total I p)
    {f : Nat → Outcome Value α → Run β} (tails : ∀ o, Grows fun n => f n o) {text : Text}
    {w : Store} (start : I.holds w) (failing : ∀ v, I.holds v → Settles I (fun n => f n .failure) v)
    (succeeding : ∀ n a rest v, p n (.str text) w = (.done (.success a (.str rest)), v) →
      I.holds v → Settles I (fun n => f n (.success a (.str rest))) v) :
    Settles I (fun n => p n (.str text) >>= f n) w := by
  refine (total.settles text w start).bind (total.growsAt _) tails fun n o v run kept => ?_
  cases o with
  | failure => exact failing v kept
  | success a rest =>
    obtain ⟨rest, rfl, -⟩ := total.leaves n (.str text) w _ v run text rfl
    exact succeeding n a rest v run kept

theorem ret (v : α) : Total I fun _ => (Parser.ret v : Parser Value Store α) where
  grows _ := .refl _
  leaves _ := .ret v
  settles _ _ := .done _

theorem bind {p : Nat → Parser Value Store α} {f : Nat → α → Parser Value Store β}
    (head : Total I p) (tail : ∀ v, Total I fun n => f n v) :
    Total I fun n => (p n).bind (f n) where
  grows le := (head.grows le).bind fun v => (tail v).grows le
  leaves n := (head.leaves n).bind fun v => (tail v).leaves n
  settles text w start := by
    refine head.follow (fun o => ?_) start (fun v kept => .done _ kept) fun n a rest v _ kept =>
      (tail a).settles rest v kept
    cases o with
    | failure => exact Grows.const _
    | success a rest => exact (tail a).growsAt rest

theorem alt {p q : Nat → Parser Value Store α} (left : Total I p) (right : Total I q) :
    Total I fun n => (p n).alt (q n) where
  grows le := (left.grows le).alt (right.grows le)
  leaves n := (left.leaves n).alt (right.leaves n)
  settles text w start := by
    refine left.follow (fun o => ?_) start (fun v kept => right.settles text v kept)
      fun n a rest v _ kept => .done _ kept
    cases o with
    | failure => exact right.growsAt _
    | success a rest => exact Grows.const _

theorem mapM {p : Nat → Parser Value Store α} {f : Nat → α → Run β} (head : Total I p)
    (grows : ∀ v, Grows fun n => f n v)
    (ends : ∀ v w, I.holds w → Settles I (fun n => f n v) w) :
    Total I fun n => (p n).mapM (f n) where
  grows le := (head.grows le).mapM fun v => grows v _ _ le
  leaves n := (head.leaves n).mapM (f n)
  settles text w start := by
    refine head.follow (fun o => ?_) start (fun v kept => .done _ kept) fun n a rest v _ kept =>
      (ends a v kept).bind (grows a) (fun _ => Grows.const _) fun _ _ _ _ kept => .done _ kept
    cases o with
    | failure => exact Grows.const _
    | success a rest => exact (grows a).bind fun _ => Grows.const _

theorem map {p : Nat → Parser Value Store α} (head : Total I p) (f : α → β) :
    Total I fun n => (p n).map f :=
  head.mapM (fun _ => Grows.const _) fun _ _ kept => .done _ kept

theorem filterM {p : Nat → Parser Value Store α} {test : Nat → α → Run Bool} (head : Total I p)
    (grows : ∀ v, Grows fun n => test n v)
    (ends : ∀ v w, I.holds w → Settles I (fun n => test n v) w) :
    Total I fun n => (p n).filterM (test n) where
  grows le := (head.grows le).filterM fun v => grows v _ _ le
  leaves n := (head.leaves n).filterM (test n)
  settles text w start := by
    refine head.follow (fun o => ?_) start (fun v kept => .done _ kept) fun n a rest v _ kept =>
      (ends a v kept).bind (grows a) (fun _ => Grows.const _) fun _ kept' _ _ kept => ?_
    · cases o with
      | failure => exact Grows.const _
      | success a rest => exact (grows a).bind fun _ => Grows.const _
    · cases kept' with
      | true => exact .done _ kept
      | false => exact .done _ kept

theorem keepRight {p : Nat → Parser Value Store α} {q : Nat → Parser Value Store β}
    (left : Total I p) (right : Total I q) : Total I fun n => (p n).keepRight (q n) :=
  left.bind fun _ => right

theorem keepLeft {p : Nat → Parser Value Store α} {q : Nat → Parser Value Store β}
    (left : Total I p) (right : Total I q) : Total I fun n => (p n).keepLeft (q n) :=
  left.bind fun _ => right.map _

theorem between {a : Nat → Parser Value Store α} {b : Nat → Parser Value Store β}
    {p : Nat → Parser Value Store γ} (opening : Total I a) (closing : Total I b)
    (inner : Total I p) : Total I fun n => Parser.between (a n) (b n) (p n) :=
  opening.bind fun _ => inner.bind fun x => closing.bind fun _ => .ret x

theorem optional {p : Nat → Parser Value Store α} (head : Total I p) :
    Total I fun n => Parser.optional (p n) := (head.bind fun _ => .ret ()).alt (.ret ())

theorem pair {p : Nat → Parser Value Store α} {q : Nat → Parser Value Store β} (left : Total I p)
    (right : Total I q) : Total I fun n => (p n).pair (q n) := by
  simpa only [pairBind] using left.bind fun x => right.map (Prod.mk x)

theorem sequenceFrom {ι : Type} {p : Nat → ι → Parser Value Store α} {items : List ι}
    (each : ∀ i ∈ items, Total I fun n => p n i) (seen : List α) :
    Total I fun n => Parser.sequenceFrom seen (items.map (p n)) := by
  induction items generalizing seen with
  | nil => exact .ret _
  | cons i items ih =>
    obtain ⟨first, others⟩ := List.forall_mem_cons.mp each
    exact first.bind fun v => ih others (v :: seen)

theorem countFrom {p : Nat → Parser Value Store α} (head : Total I p) (seen : List α) (k : Nat) :
    Total I fun n => Parser.countFrom (p n) seen k := by
  induction k generalizing seen with
  | zero => exact .ret _
  | succ k ih => exact head.bind fun v => ih (v :: seen)

theorem succ {p : Nat → Parser Value Store α} (head : Total I p) : Total I fun n => p (n + 1) where
  grows le := head.grows (by omega)
  leaves n := head.leaves (n + 1)
  settles text w start := by
    exact (head.settles text w start).mono fun n => head.grows (Nat.le_succ n) (.str text)

theorem repeatFrom {p : Nat → Parser Value Store α} (head : Total I p)
    (shrinks : ∀ n, Shrinks (p n)) {size : Nat} (seen : List α) {text : Text}
    (small : text.length < size) {w : Store} (start : I.holds w) :
    Settles I (fun n => Parser.repeatFrom (p n) n seen (.str text)) w := by
  induction size generalizing seen text w with
  | zero => omega
  | succ size ih =>
    have round : Settles I (fun n => p (n + 1) (.str text) >>=
        repeatRest (p (n + 1)) (n + 1) seen (.str text)) w := by
      refine head.succ.follow (fun o => ?_) start (fun v kept => .done _ kept)
        fun n a rest v run kept => ?_
      · cases o with
        | failure => exact Grows.const _
        | success v rest =>
          exact fun m n le => Parser.Below.repeatFrom (head.grows (by omega)) le (v :: seen) rest
      · obtain ⟨mid, same, less⟩ := shrinks (n + 1) text w _ v run
        cases same
        exact (ih (a :: seen) (by omega) kept).mono fun n =>
          Parser.Below.repeatFrom (head.grows (Nat.le_succ n)) (Nat.le_refl n) (a :: seen) _
    refine .next ?_
    simp only [repeatRound]
    exact round

theorem repeated {p : Nat → Parser Value Store α} (head : Total I p)
    (shrinks : ∀ n, Shrinks (p n)) (least : Nat) :
    Total I fun n => Parser.repeated n least (p n) where
  grows le := Parser.Below.repeated (head.grows le) le least
  leaves n := (head.leaves n).repeated n least
  settles text w start := by
    have loop := head.repeatFrom shrinks [] (Nat.lt_succ_self text.length) start
    refine loop.bind (fun m n le => Parser.Below.repeatFrom (head.grows le) le [] _)
      (fun _ => Grows.const _) fun n r v _ kept => ?_
    dsimp only
    split
    · exact .done _ kept
    · exact .done _ kept

theorem sepBy1Within {p : Nat → Parser Value Store α} {sep : Nat → Parser Value Store β}
    (operand : Total I p) (separator : Total I sep)
    (shrinks : ∀ n, Shrinks ((sep n).keepRight (p n))) :
    Total I fun n => Parser.sepBy1Within n (p n) (sep n) :=
  operand.bind fun _ => ((separator.keepRight operand).repeated shrinks 0).bind fun _ => .ret _

theorem sepByWithin {p : Nat → Parser Value Store α} {sep : Nat → Parser Value Store β}
    (operand : Total I p) (separator : Total I sep)
    (shrinks : ∀ n, Shrinks ((sep n).keepRight (p n))) :
    Total I fun n => Parser.sepByWithin n (p n) (sep n) :=
  (operand.sepBy1Within separator shrinks).alt (.ret [])

section
variable {ι : Type} {p : Nat → Parser Value Store α} {op : Nat → Parser Value Store ι}
  {f : Nat → ι → α → α → Run α} (operand : Total I p) (operator : Total I op)
  (shrinks : ∀ n, Shrinks ((op n).pair (p n)))
  (grows : ∀ i x y, Grows fun n => f n i x y)
  (ends : ∀ n text w i rest v, I.holds w → op n (.str text) w = (.done (.success i rest), v) →
    ∀ x y w, I.holds w → Settles I (fun n => f n i x y) w)
include operand operator shrinks grows ends

theorem chainFrom {size : Nat} (value : α) {text : Text} (small : text.length < size) {w : Store}
    (start : I.holds w) :
    Settles I (fun n => Parser.chainFrom (p n) ((op n).map (f n)) n value (.str text)) w := by
  have later : ∀ m n k l, m ≤ n → k ≤ l → ∀ value x, Below
      (Parser.chainFrom (p m) ((op m).map (f m)) k value x)
      (Parser.chainFrom (p n) ((op n).map (f n)) l value x) := fun m n k l le more =>
    Parser.Below.chainFrom (operand.grows le) (operator.grows le) (fun i x y => grows i x y m n le)
      more
  induction size generalizing value text w with
  | zero => omega
  | succ size ih =>
    have both := operator.pair operand
    have round : Settles I (fun n => (op (n + 1)).pair (p (n + 1)) (.str text) >>=
        chainRest (p (n + 1)) (op (n + 1)) (f (n + 1)) (n + 1) value (.str text)) w := by
      refine both.succ.follow (fun o => ?_) start (fun v kept => .done _ kept)
        fun n a rest v run kept => ?_
      · cases o with
        | failure => exact Grows.const _
        | success a rest =>
          refine Grows.bind (fun m n le => grows a.1 value a.2 _ _ (by omega)) fun value => ?_
          exact fun m n le => later _ _ _ _ (by omega) le value rest
      · obtain ⟨mid, same, less⟩ := shrinks (n + 1) text w _ v run
        cases same
        obtain ⟨front, u, operators⟩ := pairFirst run
        have called := ends (n + 1) text w a.1 front u start operators value a.2 v kept
        have calls : Grows fun n => f n a.1 value a.2 := grows a.1 value a.2
        have here : Settles I (fun n => f (n + 1) a.1 value a.2) v :=
          called.mono fun n => calls n (n + 1) (Nat.le_succ n)
        refine here.bind (fun m n le => calls _ _ (by omega))
          (fun value m n le => later _ _ _ _ (by omega) le value _) fun n value u _ kept => ?_
        exact (ih value (by omega) kept).mono fun n =>
          later n (n + 1) n n (Nat.le_succ n) (Nat.le_refl n) value _
    refine .next ?_
    simp only [chainRound]
    exact round

theorem chainl1 {first : Nat → Parser Value Store α} (head : Total I first) :
    Total I fun n => (first n).bind (Parser.chainAfter n (p n) ((op n).map (f n))) := by
  refine head.bind fun value => ⟨fun le => ?_, fun n => ?_, fun text w start => ?_⟩
  · exact Parser.Below.chainAfter (operand.grows le) (operator.grows le)
      (fun i x y => grows i x y _ _ le) le value
  · exact (operand.leaves n).chainAfter ((operator.leaves n).map _) n value
  · have loop := chainFrom operand operator shrinks grows ends value
      (Nat.lt_succ_self text.length) start
    refine loop.bind (fun m n le => ?_) (fun _ => Grows.const _) fun _ _ _ _ kept => .done _ kept
    exact Parser.Below.chainFrom (operand.grows le) (operator.grows le)
      (fun i x y => grows i x y _ _ le) le value _

end

end Total
end

def Still {ω α : Type} (x : Eff ω α) : Prop := ∀ w, ∃ exit, exit ≠ .exhausted ∧ x w = (exit, w)

section
variable {ω α : Type}

theorem Still.done (a : α) : Still (Eff.done a : Eff ω α) := fun _ => ⟨.done a, nofun, rfl⟩

theorem Still.raise (fault : Fault) : Still (Eff.raise fault : Eff ω α) :=
  fun _ => ⟨.raised fault, nofun, rfl⟩

theorem readingStill {onTexts : Parser Text ω α} {text : Text} {o : Outcome Text α}
    (answers : onTexts text = pure o) (value : α → Value) (onOthers : Parser Value ω Value) :
    Still (reading onTexts value onOthers (.str text)) := by
  change Still (onTexts text >>= _)
  rw [answers]
  cases o with
  | failure => exact .done _
  | success v rest => exact .done _

theorem readsStill {onTexts : Parser Text ω α} {text : Text} {read : α → Text → Prop}
    (reads : Reads (onTexts text) read) (value : α → Value) (onOthers : Parser Value ω Value) :
    Still (reading onTexts value onOthers (.str text)) := by
  cases reads with
  | fits v rest same only => exact readingStill same value onOthers
  | fails same none => exact readingStill same value onOthers

theorem itemStill (text : Text) : Still (item (.str text) : Eff ω _) := by
  cases text with
  | nil => exact .done _
  | cons c text => exact .done _

theorem anyWordStill (words : List Value) (text : Text) (more : List Value) :
    Still (anyWord words text more : Eff ω _) := by
  induction more with
  | nil => exact .done _
  | cons v more ih =>
    cases v with
    | str w =>
      unfold anyWord
      cases text.afterWord? w with
      | none => exact ih
      | some rest => exact .done _
    | _ => exact .raise _

theorem stringStill (word : Value) (text : Text) : Still (string word (.str text) : Eff ω _) := by
  cases word with
  | str w =>
    have answers : ∃ o, (Parser.string w text : Eff ω _) = pure o := by
      unfold Parser.string
      cases text.afterWord? w with
      | none => exact ⟨_, rfl⟩
      | some rest => exact ⟨_, rfl⟩
    obtain ⟨o, answers⟩ := answers
    exact readingStill answers .str Parser.fail
  | tuple words => exact anyWordStill words text words
  | _ => exact .raise _

theorem classStill (k : CharClass) (text : Text) : Still (ofClass k (.str text) : Eff ω _) :=
  readsStill (.sat k.holds text) .ofChar _

theorem numStill (limit : Nat) (text : Text) : Still (num limit (.str text) : Eff ω _) :=
  readsStill (numReads text) (fun x => .float x) _

theorem leafStill (limit : Nat) (l : Leaf) (text : Text) :
    Still (l.parser limit (.str text) : Eff ω _) := by
  cases l with
  | item => exact itemStill text
  | fail => exact .done _
  | eof =>
    cases text with
    | nil => exact .done _
    | cons c text => exact .done _
  | num => exact numStill limit text
  | ofClass k => exact classStill k text

end

section
variable {I : Invariant}

theorem Still.settles {α : Type} {x : Run α} {w : Store} (still : Still x)
    (start : I.holds w) : Settles I (fun _ => x) w := by
  obtain ⟨exit, ended, run⟩ := still w
  exact ⟨0, exit, w, run, ended, start⟩

theorem Total.still {α : Type} {p : Parser Value Store α} (leaves : Leaves textSuffix p)
    (still : ∀ text, Still (p (.str text))) : Total I fun _ => p :=
  ⟨fun _ => .refl p, fun _ => leaves, fun text _ => (still text).settles⟩

theorem Total.leaf (l : Leaf) : Total I fun n => l.parser n where
  grows le := leafBelow le l
  leaves n := leafLeaves n l
  settles text w start := by
    obtain ⟨exit, ended, run⟩ := leafStill 0 l text w
    exact ⟨0, exit, w, run, ended, start⟩

theorem Total.trace (label : Text) : Total I fun _ => Script.trace label where
  grows _ := .refl _
  leaves _ := readingLeaves (.trace label) _ _
  settles _ w start := ⟨0, _, _, rfl, nofun, I.records _ w start⟩

def CallsEnd (I : Invariant) (f : Value) (count : Nat) : Prop :=
  ∀ args w, args.length = count → I.holds w → Settles I (fun n => call n f args []) w

theorem callGrows (f : Value) (args : List Value) : Grows fun n => call n f args [] :=
  fun _ _ le => callBelow le f args []

theorem applyParserGrows {m n : Nat} (le : m ≤ n) : ApplierBelow (applyParser m) (applyParser n) := by
  induction m generalizing n with
  | zero => exact fun _ _ => .exhausted _
  | succ m ih =>
    cases n with
    | zero => omega
    | succ n =>
      have le : m ≤ n := by omega
      intro p x
      cases p with
      | parser mark g => exact applyWithBelow (ih le) (callBelow le) le g x
      | _ => exact .refl _

end

end ParseKit.Script
