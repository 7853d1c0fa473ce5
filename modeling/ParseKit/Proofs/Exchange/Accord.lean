import Mathlib.Order.Filter.AtTopBot.Basic
import ParseKit.Proofs.Exchange.Building

/-! Runs in which parsers are exchanged. The left run is wary and has one limit; the right one has
any larger limit and ends, as soon as the limit is large enough, alike and in a store that agrees.
What it means for stores to agree is left open but for what evaluation does to them. -/
namespace ParseKit.Script
open Filter (Eventually atTop)

/- What it means for two stores to agree. Names are given on one side only where trace points are
made there, and records are put down there only by such points. -/
structure Accord (X : Exchange) where
  agree : Store → Store → Prop
  cell : ∀ {a s}, agree a s → X.cells a.name.ofCell s.name.ofCell
  next : ∀ {a s}, agree a s → agree (a.naming a.name.next) (s.naming s.name.next)
  nextLeft : ∀ {a s}, X.right = none → X.left ≠ none → agree a s →
    agree (a.naming a.name.next) s
  nextRight : ∀ {a s}, X.left = none → X.right ≠ none → agree a s →
    agree a (s.naming s.name.next)
  note : ∀ {a s} {v v' : Value}, agree a s → v.Alike X v' →
    agree (a.addEvent (.note v)) (s.addEvent (.note v'))
  record : ∀ {a s} (r : Record), agree a s →
    agree (a.addEvent (.record r)) (s.addEvent (.record r))
  recordLeft : ∀ {a s} {label : Text} (front : Text) (more : Bool), X.LoneLeft label → agree a s →
    agree (a.addEvent (.record (.passed label front more))) s
  recordRight : ∀ {a s} {label : Text} (front : Text) (more : Bool), X.LoneRight label → agree a s →
    agree a (s.addEvent (.record (.passed label front more)))
  share : ∀ {a s} (tag : Option Text) (body : Expr) {env env' : Env}, agree a s →
    env.Alike X env' →
    agree ((a.naming a.name.nextCell).addCell ⟨a.name.ofCell, tag, body, env, none⟩)
      ((s.naming s.name.nextCell).addCell ⟨s.name.ofCell, tag, body.meant X.onRight, env', none⟩)

section
variable {α β : Type} {x : Run α} {w : Store}

theorem headEnds {f : α → Run β} (ended : ((x >>= f) w).1 ≠ .exhausted) :
    (x w).1 ≠ .exhausted := by
  rcases run : x w with ⟨exit, v⟩
  rintro rfl
  exact ended (congrArg Prod.fst (Eff.bindOfExhausted run))

theorem attemptedEnds (ended : (x.attempt w).1 ≠ .exhausted) : (x w).1 ≠ .exhausted := by
  rcases run : x w with ⟨exit, v⟩
  rintro rfl
  exact ended (congrArg Prod.fst (Eff.attemptOfExhausted run))

end

section
variable {X : Exchange} {α β γ δ : Type}

inductive Joined (K : Accord X) (R : α → β → Prop) : Exit α × Store → Exit β × Store → Prop where
  | done {v : α} {v' : β} {a s : Store} (agree : K.agree a s) (alike : R v v') :
      Joined K R (.done v, a) (.done v', s)
  | raised {fault : Fault} {a s : Store} (agree : K.agree a s) :
      Joined K R (.raised fault, a) (.raised fault, s)

/- Where the left run ends, the right ones end alike from some limit on. -/
def Along (K : Accord X) (R : α → β → Prop) (x : Run α) (y : Nat → Run β) : Prop :=
  ∀ a s, K.agree a s → (x a).1 ≠ .exhausted →
    ∃ q, (∀ᶠ n in atTop, y n s = q) ∧ Joined K R (x a) q

namespace Along
variable {K : Accord X} {R : α → β → Prop} {S : γ → δ → Prop} {x : Run α} {y : Nat → Run β}

theorem done {v : α} {v' : β} (alike : R v v') : Along K R (pure v) (fun _ => pure v') :=
  fun _ s agree _ => ⟨(.done v', s), .of_forall fun _ => rfl, .done agree alike⟩

theorem raise (fault : Fault) : Along K R (Eff.raise fault) (fun _ => Eff.raise fault) :=
  fun _ s agree _ => ⟨(.raised fault, s), .of_forall fun _ => rfl, .raised agree⟩

theorem short : Along K R Eff.exhausted y := fun _ _ _ ended => absurd rfl ended

theorem bind {f : α → Run γ} {g : Nat → β → Run δ} (head : Along K R x y)
    (tail : ∀ v v', R v v' → Along K S (f v) (fun n => g n v')) :
    Along K S (x >>= f) (fun n => y n >>= g n) := by
  intro a s agree ended
  obtain ⟨q, same, joined⟩ := head a s agree (headEnds ended)
  rcases left : x a with ⟨exit, a'⟩
  rw [left] at joined
  cases joined with
  | raised agree =>
    rw [Eff.bindOfRaised left]
    exact ⟨_, same.mono fun n run => Eff.bindOfRaised run, .raised agree⟩
  | done agree alike =>
    rw [Eff.bindOfDone left] at ended ⊢
    obtain ⟨q, further, joined⟩ := tail _ _ alike _ _ agree ended
    refine ⟨q, ?_, joined⟩
    filter_upwards [same, further] with n run later
    rw [Eff.bindOfDone run, later]

theorem attempt (inner : Along K R x y) :
    Along K (ResultAlike R) x.attempt (fun n => (y n).attempt) := by
  intro a s agree ended
  obtain ⟨q, same, joined⟩ := inner a s agree (attemptedEnds ended)
  rcases left : x a with ⟨exit, a'⟩
  rw [left] at joined
  cases joined with
  | raised agree =>
    rw [Eff.attemptOfRaised left]
    exact ⟨_, same.mono fun n run => Eff.attemptOfRaised run, .done agree (.error _)⟩
  | done agree alike =>
    rw [Eff.attemptOfDone left]
    exact ⟨_, same.mono fun n run => Eff.attemptOfDone run, .done agree (.ok alike)⟩

theorem weaken {R' : α → β → Prop} (along : Along K R x y) (weaker : ∀ v v', R v v' → R' v v') :
    Along K R' x y := by
  intro a s agree ended
  obtain ⟨q, same, joined⟩ := along a s agree ended
  refine ⟨q, same, ?_⟩
  generalize x a = p at joined
  cases joined with
  | done agree alike => exact .done agree (weaker _ _ alike)
  | raised agree => exact .raised agree

theorem later (along : Along K R x y) : Along K R x (fun n => y (n + 1)) := by
  intro a s agree ended
  obtain ⟨q, same, joined⟩ := along a s agree ended
  exact ⟨q, (Filter.tendsto_add_atTop_nat 1).eventually same, joined⟩

theorem ofLater (along : Along K R x (fun n => y (n + 1))) : Along K R x y := by
  intro a s agree ended
  obtain ⟨q, same, joined⟩ := along a s agree ended
  refine ⟨q, ?_, joined⟩
  rw [← Filter.map_add_atTop_eq_nat 1]
  exact same

theorem ofResult {r : Except Fault α} {r' : Except Fault β} (alike : ResultAlike R r r') :
    Along K R (Eff.ofExcept r) (fun _ => Eff.ofExcept r') := by
  cases alike with
  | ok related => exact done related
  | error fault => exact raise fault

theorem name : Along K (fun _ _ => True) Run.name (fun _ => Run.name) := fun _ s agree _ =>
  ⟨(.done s.name, s.naming s.name.next), .of_forall fun _ => rfl, .done (K.next agree) trivial⟩

theorem note {v v' : Value} (alike : v.Alike X v') :
    Along K (fun _ _ => True) (Run.note v) (fun _ => Run.note v') := fun _ s agree _ =>
  ⟨(.done (), s.addEvent (.note v')), .of_forall fun _ => rfl, .done (K.note agree alike) trivial⟩

theorem record (r : Record) :
    Along K (fun _ _ => True) (Eff.report r) (fun _ => (Eff.report r : Run Unit)) :=
  fun _ s agree _ =>
    ⟨(.done (), s.addEvent (.record r)), .of_forall fun _ => rfl, .done (K.record r agree) trivial⟩

theorem share (tag : Option Text) (body : Expr) {env env' : Env} (bound : env.Alike X env') :
    Along K X.cells (Run.share tag body env) (fun _ => Run.share tag (body.meant X.onRight) env') :=
  fun _ s agree _ => ⟨(.done s.name.ofCell, _), .of_forall fun _ => rfl,
    .done (K.share tag body agree bound) (K.cell agree)⟩

theorem make {m m' : Made} (alike : m.Alike X m') :
    Along K (Value.Alike X) (Run.make m) (fun _ => Run.make m') := by
  cases alike with
  | parser alike => exact name.bind fun _ _ _ => done (.parser alike)
  | value alike => exact done alike

section
variable {z : Run α} {g : Grammar}

theorem makeLeft (points : X.left ≠ none) (nothing : X.right = none) {f : Value → Run α}
    (tail : ∀ m, Along K R (f (.parser m g)) y) : Along K R (Run.make (.parser g) >>= f) y :=
  fun a s agree ended => tail (.made a.name) _ s (K.nextLeft nothing points agree) ended

theorem makeRight (nothing : X.left = none) (points : X.right ≠ none) {f : Nat → Value → Run β}
    (tail : ∀ m, Along K R x (fun n => f n (.parser m g))) :
    Along K R x (fun n => Run.make (.parser g) >>= f n) :=
  fun a s agree ended => tail (.made s.name) a _ (K.nextRight nothing points agree) ended

theorem bindRight {f : Nat → β → Run δ} {S : α → δ → Prop} (head : Along K R x y)
    (tail : ∀ v v', R v v' → Along K S (pure v) (fun n => f n v')) :
    Along K S x (fun n => y n >>= f n) := by
  have whole := head.bind tail
  rwa [show x >>= (fun v => pure v) = x from Eff.bindDone x] at whole

theorem bindLeft {f : α → Run γ} {S : γ → β → Prop} (head : Along K R x y)
    (tail : ∀ v v', R v v' → Along K S (f v) (fun _ => pure v')) :
    Along K S (x >>= f) y := by
  have whole := head.bind (g := fun _ v' => pure v') tail
  simpa only [show ∀ n, y n >>= (fun v => pure v) = y n from fun n => Eff.bindDone (y n)] using whole

end

theorem number (x : Binary64) :
    Along K (Value.Alike X) (Run.number x) (fun _ => Run.number x) := by
  unfold Run.number
  split
  · exact name.bind fun _ _ _ => done (.float rfl rfl)
  · exact done (.float rfl rfl)

end Along

def Accord.following (K : Accord X) : Simulation OneWorld Store Store where
  Follows _ L x y := Along K (L.holds .only) x y
  grow _ := id
  done {_ _ _ L _ _} alike := .done (L.grow trivial alike)
  short := .short
  bind {_ _ _ _ _ L M _ _ _ _} head tail := by
    exact head.bind fun v v' alike => tail .only v v' trivial alike

end

end ParseKit.Script
