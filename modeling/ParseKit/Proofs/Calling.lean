import ParseKit.Proofs.Block.Chain
import ParseKit.Proofs.Settling

/-! Ways to call. Functions are whatever calls make of them, with any effect: scripts are one way to
call. Runs are followed through all limits at once, and two of them agree if they end alike, with the
same value or fault and in the same store. Applying a sequence or a choice agrees with applying its
parts. -/
namespace ParseKit.Script
open Eff (Below)

structure Running (α : Type) where
  within : Nat → Run α
  grows : Grows within

namespace Running
variable {α β γ : Type}

def always (x : Run α) : Running α := ⟨fun _ => x, .const x⟩

def ret (a : α) : Running α := always (pure a)

def bind (x : Running α) (f : α → Running β) : Running β :=
  ⟨fun limit => x.within limit >>= fun a => (f a).within limit,
    x.grows.bind fun a => (f a).grows⟩

theorem bindAssoc (x : Running α) (f : α → Running β) (g : β → Running γ) :
    (x.bind f).bind g = x.bind fun a => (f a).bind g := by
  simp only [bind, bind_assoc]

theorem retBind (a : α) (f : α → Running β) : (ret a).bind f = f a := rfl

theorem bindRet (x : Running α) : x.bind ret = x := by
  cases x
  simp [bind, ret, always]

def Ends (x : Running α) (w : Store) (exit : Exit α) (w' : Store) : Prop :=
  exit ≠ .exhausted ∧ ∃ limit, x.within limit w = (exit, w')

theorem endsBind {x : Running α} {f : α → Running β} {w w' : Store} {exit : Exit β} :
    (x.bind f).Ends w exit w' ↔ (∃ a v, x.Ends w (.done a) v ∧ (f a).Ends v exit w') ∨
      ∃ fault, x.Ends w (.raised fault) w' ∧ exit = .raised fault := by
  constructor
  · rintro ⟨ended, n, run⟩
    rcases Eff.bindEnds run ended with ⟨a, v, head, tail⟩ | ⟨fault, head, rfl⟩
    · exact .inl ⟨a, v, ⟨nofun, n, head⟩, ended, n, tail⟩
    · exact .inr ⟨fault, ⟨nofun, n, head⟩, rfl⟩
  · rintro (⟨a, v, ⟨_, m, head⟩, ended, n, tail⟩ | ⟨fault, ⟨_, n, head⟩, rfl⟩)
    · have first := x.grows.later (Nat.le_max_left m n) head nofun
      have last := (f a).grows.later (Nat.le_max_right m n) tail ended
      exact ⟨ended, max m n, (Eff.bindOfDone first).trans last⟩
    · exact ⟨nofun, n, Eff.bindOfRaised head⟩

end Running

/- Two runs end alike: the one ends with a result and a store where the other does. -/
def Agree {α : Type} (x y : Running α) : Prop := ∀ w exit w', x.Ends w exit w' ↔ y.Ends w exit w'

namespace Agree
variable {α β : Type} {x y z : Running α}

theorem refl (x : Running α) : Agree x x := fun _ _ _ => .rfl

theorem symm (agree : Agree x y) : Agree y x := fun w exit w' => (agree w exit w').symm

theorem trans (first : Agree x y) (second : Agree y z) : Agree x z := fun w exit w' =>
  (first w exit w').trans (second w exit w')

theorem bind {f g : α → Running β} (head : Agree x y) (tail : ∀ a, Agree (f a) (g a)) :
    Agree (x.bind f) (y.bind g) := by
  intro w exit w'
  simp only [Running.endsBind, head w, fun a v => tail a v exit w']

theorem head (agree : Agree x y) (f : α → Running β) : Agree (x.bind f) (y.bind f) :=
  agree.bind fun a => refl (f a)

theorem tail (x : Running α) {f g : α → Running β} (agree : ∀ a, Agree (f a) (g a)) :
    Agree (x.bind f) (x.bind g) := (refl x).bind agree

theorem later (same : ∀ limit, x.within (limit + 1) = y.within limit) : Agree x y := by
  intro w exit w'
  constructor
  · rintro ⟨ended, limit, run⟩
    exact ⟨ended, limit, same limit ▸ x.grows.later (Nat.le_succ limit) run ended⟩
  · rintro ⟨ended, limit, run⟩
    exact ⟨ended, limit + 1, same limit ▸ run⟩

theorem given {f g : α → Running β} {post : α → Prop}
    (gives : ∀ limit, (x.within limit).Gives post) (agree : ∀ a, post a → Agree (f a) (g a)) :
    Agree (x.bind f) (x.bind g) := by
  intro w exit w'
  simp only [Running.endsBind]
  refine or_congr_left (exists_congr fun a => exists_congr fun v => and_congr_right ?_)
  rintro ⟨_, limit, run⟩
  exact agree a (gives limit w a v run) v exit w'

theorem unit {f : α → Running α} {post : α → Prop} (gives : ∀ limit, (x.within limit).Gives post)
    (agree : ∀ a, post a → Agree (f a) (.ret a)) : Agree (x.bind f) x := by
  have ends := given gives agree
  rwa [Running.bindRet] at ends

end Agree

/-- A way to call that applies parsers as they are. -/
structure Calling where
  call : Nat → Caller
  applies : ∀ limit mark g x, call (limit + 1) (.parser mark g) [x] [] =
    g.applyWith (applyBy (call limit)) (call limit) limit x
  grows : ∀ {m n}, m ≤ n → CallerBelow (call m) (call n)

def Calling.script : Calling := ⟨Script.call, fun _ _ _ _ => rfl, callBelow⟩

def afterwards (next : Value → Value → Running Value) : Outcome Value Value → Running Value
  | .failure => .ret .failure
  | .success v rest => next v rest

namespace Calling
variable (c : Calling)

def called (f v : Value) : Running Value :=
  ⟨fun limit => c.call limit f [v] [], fun _ _ le => c.grows le f [v] []⟩

def taken (p x : Value) : Running (Outcome Value Value) :=
  (c.called p x).bind fun r => .always (Eff.ofExcept (r.outcome "value"))

def continued (f v rest : Value) : Running Value := (c.called f v).bind fun p => c.called p rest

def sequenced (p f x : Value) : Running Value := (c.taken p x).bind (afterwards (c.continued f))

def chosen (p q x : Value) : Running Value :=
  (c.called p x).bind fun r => if r.truth then .ret r else c.called q x

def GivesOutcomes (p : Value) : Prop :=
  ∀ x limit, ((c.called p x).within limit).Gives fun r => r.isOutcome = true

theorem bindCalls (limit : Nat) (mark : Mark) (p f x : Value) :
    (c.called (.parser mark (.bind p f)) x).within (limit + 1) =
      (c.sequenced p f x).within limit := by
  refine (c.applies limit mark (.bind p f) x).trans (bind_congr fun o => ?_)
  cases o <;> rfl

theorem choiceCalls (limit : Nat) (mark : Mark) (p q x : Value) :
    (c.called (.parser mark (.choice [p, q])) x).within (limit + 1) =
      (c.chosen p q x).within limit := by
  refine (c.applies limit mark (.choice [p, q]) x).trans (bind_congr fun r => ?_)
  dsimp only
  split <;> rfl

theorem bindAgrees (mark : Mark) (p f x : Value) :
    Agree (c.called (.parser mark (.bind p f)) x) (c.sequenced p f x) :=
  .later fun limit => c.bindCalls limit mark p f x

theorem choiceAgrees (mark : Mark) (p q x : Value) :
    Agree (c.called (.parser mark (.choice [p, q])) x) (c.chosen p q x) :=
  .later fun limit => c.choiceCalls limit mark p q x

theorem retAgrees (mark : Mark) (v x : Value) :
    Agree (c.called (.parser mark (.ret v)) x) (.ret (.success v x)) :=
  .later fun limit => c.applies limit mark (.ret v) x

theorem failAgrees (x : Value) : Agree (c.called Atom.fail.value x) (.ret .failure) :=
  .later fun limit => c.applies limit (.atom .fail) (.leaf .fail) x

theorem outcomeBack {r : Value} (outcome : r.isOutcome = true) :
    ∃ o, r.outcome "value" = .ok o ∧ Value.ofOutcome o = r ∧ (r.truth = false → r = .failure) := by
  cases r with
  | success v rest => exact ⟨.success v rest, rfl, rfl, nofun⟩
  | failure => exact ⟨.failure, rfl, rfl, fun _ => rfl⟩
  | _ => cases outcome

theorem sequenceAgrees {p x : Value} {y : Running Value} (agree : Agree (c.called p x) y)
    (f : Value) : Agree (c.sequenced p f x)
      ((y.bind fun r => .always (Eff.ofExcept (r.outcome "value"))).bind
        (afterwards (c.continued f))) :=
  (agree.head _).head _

theorem alternativeAgrees {p q x : Value} {y z : Running Value} (first : Agree (c.called p x) y)
    (second : Agree (c.called q x) z) :
    Agree (c.chosen p q x) (y.bind fun r => if r.truth then .ret r else z) :=
  first.bind fun r => by
    split
    · exact .refl _
    · exact second

theorem outcomesOfGive {g : Grammar} {p : Applier → Caller → Nat → Parser Value Store Value}
    (gives : ∀ apply call limit, g.applyWith apply call limit = give (p apply call limit))
    (mark : Mark) : c.GivesOutcomes (.parser mark g) := by
  intro x limit w r w' run
  have more : c.call (limit + 1) (.parser mark g) [x] [] w = (.done r, w') :=
    (c.grows (Nat.le_succ limit) _ _ _).ends run nofun
  rw [c.applies, gives] at more
  exact giveOutcome _ x w r w' more

theorem itemOutcomes : c.GivesOutcomes Atom.item.value :=
  c.outcomesOfGive (g := .leaf .item) (fun _ _ _ => rfl) _

end Calling

/- Calls in which some functions are a host's. What such a function does may depend on calls, but
with more of these ending it may only end more often. -/
structure Host where
  act : Name → Option (Caller → Value → Run Value)
  grows : ∀ {id f}, act id = some f → ∀ {c d}, CallerBelow c d → ∀ v, Below (f c v) (f d v)

namespace Host
variable (host : Host)

def function? : Value → List Value → Option (Caller → Run Value)
  | .lambda id .., [v] => (host.act id).map fun f call => f call v
  | _, _ => none

def call : Nat → Caller
  | 0 => fun _ _ _ => Eff.exhausted
  | limit + 1 => fun f args named =>
    match host.function? f args with
    | some act => act (call limit)
    | none => callWith (call limit) limit f args named

theorem callBelow {m n : Nat} (le : m ≤ n) : CallerBelow (host.call m) (host.call n) := by
  induction m generalizing n with
  | zero => exact fun _ _ _ => .exhausted _
  | succ m ih =>
    obtain ⟨n, rfl⟩ := Nat.exists_eq_add_one_of_ne_zero (by omega : n ≠ 0)
    have less : m ≤ n := by omega
    intro f args named
    simp only [call]
    cases found : host.function? f args with
    | none => exact callWithBelow (ih less) less f args named
    | some act =>
      unfold function? at found
      split at found
      · obtain ⟨act, given, rfl⟩ := Option.map_eq_some_iff.mp found
        exact host.grows given (ih less) _
      · cases found

def calling : Calling := ⟨host.call, fun _ _ _ _ => rfl, host.callBelow⟩

end Host

def hosted (id : Name) : Value := .lambda id [] (.lit .none) []

end ParseKit.Script
