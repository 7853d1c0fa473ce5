import ParseKit.Proofs.History.Session

/-! Shared parsers, with what becomes of them told as it happens. When one is applied, when its
thunk begins, returns or raises, and when the parser that its cell holds is applied in its place,
events may be put down, whichever those are. Thunks may be held to only build, that is, be cut short
where they apply a parser. The run is otherwise as it is. -/
namespace ParseKit.Script
open Eff (Below)

structure Lazy where
  name : Name
  number : Nat
  deriving DecidableEq

inductive Moment where
  | applied
  | began
  | returned (p : Value)
  | raised (fault : Fault)
  | passed (p : Value)

structure Sight where
  of : Lazy
  moment : Moment

abbrev Teller : Type := Sight → List Event

def Teller.silent : Teller := fun _ => []

namespace Store
variable (w : Store)

def addEvents (events : List Event) : Store := ⟨w.cells, w.events ++ events.toArray, w.name⟩

def made (id : Name) : Nat := w.cells.toList.countP fun c => c.name == id && c.built.isNone

def lazy (id : Name) : Lazy := ⟨id, w.made id⟩

def held (l : Lazy) : Option Value :=
  if w.made l.name = l.number then (w.cell? l.name).bind Cell.built else none

end Store

namespace Run

def lazy (id : Name) : Run Lazy := fun w => (.done (w.lazy id), w)

def tell (tell : Teller) (l : Lazy) (m : Moment) : Run Unit :=
  Eff.modify fun w => w.addEvents (tell ⟨l, m⟩)

end Run

section
variable (tell : Teller)

def thunkTelling (l : Lazy) (thunk : Run Value) : Run Value := do
  Run.tell tell l .began
  match ← thunk.attempt with
  | .ok p => do
    Run.tell tell l (.returned p)
    pure p
  | .error fault => do
    Run.tell tell l (.raised fault)
    Eff.raise fault

def heldTelling (call : Caller) (l : Lazy) : Run Value := do
  match ← Run.cell? l.name with
  | none => Eff.exhausted
  | some ⟨_, _, _, _, some p⟩ => pure p
  | some ⟨_, tag, body, env, none⟩ =>
    Run.fill l.name
      (← thunkTelling tell l (Run.building l.name (build (evalWith call) tag body env)))

def forceTelling (call : Caller) (id : Name) : Run Value := do
  let l ← Run.lazy id
  Run.tell tell l .applied
  let p ← heldTelling tell call l
  Run.tell tell l (.passed p)
  pure p

/-- Calls as they are, with shared parsers told of. The thunks of the cells in `only` are cut short
where they apply a parser. -/
def callTelling (only : Name → Bool) : Nat → Caller
  | 0 => fun _ _ _ => Eff.exhausted
  | limit + 1 => fun
    | .parser _ (.shared id), args, named => do
      let x ← Eff.ofExcept (soleArgument args named)
      let thunks := if only id then callFunction limit else callTelling only limit
      callTelling only limit (← forceTelling tell thunks id) [x] []
    | f, args, named => callWith (callTelling only limit) limit f args named

end

abbrev unheld : Name → Bool := fun _ => false

theorem callTellingOther (tell : Teller) (only : Name → Bool) {f : Value}
    (other : ∀ mark id, f ≠ .parser mark (.shared id)) (limit : Nat) (args : List Value)
    (named : Env) : callTelling tell only (limit + 1) f args named =
      callWith (callTelling tell only limit) limit f args named := by
  cases f with
  | parser mark g =>
    cases g with
    | shared id => exact absurd rfl (other mark id)
    | _ => rfl
  | _ => rfl

theorem callTellingIsForcing (tell : Teller) (only : Name → Bool) (limit : Nat) :
    callForcing (fun limit id => forceTelling tell
      (if only id then callFunction limit else callTelling tell only limit) id) limit =
        callTelling tell only limit := by
  induction limit with
  | zero => rfl
  | succ limit ih =>
    funext f args named
    by_cases shared : ∃ mark id, f = .parser mark (.shared id)
    · obtain ⟨mark, id, rfl⟩ := shared
      simp only [callForcing, ih]
      rfl
    · have other : ∀ mark id, f ≠ .parser mark (.shared id) := by simpa using shared
      rw [callForcingOther _ other, callTellingOther _ _ other, ih]

section
variable (l : Lazy)

theorem tellSilent (m : Moment) : Run.tell .silent l m = pure () := by
  funext w
  show (Exit.done (), Store.mk w.cells (w.events ++ #[]) w.name) = _
  rw [Array.append_empty]
  rfl

theorem thunkSilent (thunk : Run Value) : thunkTelling .silent l thunk = thunk := by
  funext w
  simp only [thunkTelling, tellSilent]
  rcases run : thunk w with ⟨p | fault | _, after⟩
  · exact (Eff.bindOfDone (Eff.attemptOfDone run)).trans rfl
  · exact (Eff.bindOfDone (Eff.attemptOfRaised run)).trans rfl
  · exact (Eff.bindOfExhausted (Eff.attemptOfExhausted run)).trans rfl

end

theorem forceSilent (call : Caller) (id : Name) :
    forceTelling .silent call id = force (evalWith call) id := by
  funext w
  unfold forceTelling heldTelling
  simp only [tellSilent, thunkSilent]
  exact congrFun (Eff.bindDone (force (evalWith call) id)) w

theorem callTellingSilent (limit : Nat) : callTelling .silent unheld limit = call limit := by
  induction limit with
  | zero => rfl
  | succ limit ih =>
    funext f args named
    by_cases shared : ∃ mark id, f = .parser mark (.shared id)
    · obtain ⟨mark, id, rfl⟩ := shared
      simp only [callTelling, ih, forceSilent]
      rfl
    · rw [callTellingOther _ _ (by simpa using shared), ih]
      rfl

section
variable (tell : Teller)

theorem thunkTellingBelow (l : Lazy) {x y : Run Value} (below : Below x y) :
    Below (thunkTelling tell l x) (thunkTelling tell l y) :=
  (Below.refl _).bind fun _ => below.attempt.bind fun _ => .refl _

theorem forceTellingBelow {c d : Caller} (calls : CallerBelow c d) (id : Name) :
    Below (forceTelling tell c id) (forceTelling tell d id) := by
  refine (Below.refl _).bind fun l => (Below.refl _).bind fun _ => Below.bind ?_ fun _ => .refl _
  refine (Below.refl _).bind fun found => ?_
  rcases found with _ | ⟨name, tag, body, env, _ | p⟩
  · exact .refl _
  · have built := buildBelow (fun env e => evalBelow calls env e) tag body env
    exact (thunkTellingBelow tell l (buildingBelow l.name built)).bind fun _ => .refl _
  · exact .refl _

variable (only : Name → Bool) {m n : Nat} (le : m ≤ n)
include le

theorem functionsAreTold : CallerBelow (callFunction m) (callTelling tell only n) :=
  callTellingIsForcing tell only n ▸ functionsAreForcing le _

theorem callTellingBelow : CallerBelow (callTelling tell only m) (callTelling tell unheld n) := by
  induction m generalizing n with
  | zero => exact fun _ _ _ => .exhausted _
  | succ m ih =>
    cases n with
    | zero => omega
    | succ n =>
      have less : m ≤ n := by omega
      intro f args named
      by_cases shared : ∃ mark id, f = .parser mark (.shared id)
      · obtain ⟨mark, id, rfl⟩ := shared
        refine (Below.refl _).bind fun x => Below.bind ?_ fun p => ih less p [x] []
        refine forceTellingBelow tell ?_ id
        cases only id with
        | true => exact functionsAreTold tell unheld less
        | false => exact ih less
      · have other : ∀ mark id, f ≠ .parser mark (.shared id) := by simpa using shared
        rw [callTellingOther _ _ other, callTellingOther _ _ other]
        exact callWithBelow (ih less) less f args named

end

end ParseKit.Script
