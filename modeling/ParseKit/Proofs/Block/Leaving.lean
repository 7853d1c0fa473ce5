import ParseKit.Proofs.Approximation
import ParseKit.Script.Block

/-! What comes out of a run of a generator: its value as it is, and its fault as the generator
lets it out. -/
namespace ParseKit.Script
open Eff (Below)
variable {ω α β : Type} {x : Eff ω α} {w w' : ω}

theorem leavingDone {a : α} (run : x w = (.done a, w')) : fromGenerator x w = (.done a, w') :=
  Eff.bindOfDone (Eff.attemptOfDone run)

theorem leavingPure (a : α) : fromGenerator (pure a : Eff ω α) = pure a := rfl

theorem leavingRaised {fault : Fault} (run : x w = (.raised fault, w')) :
    fromGenerator x w = (.raised fault.leaving, w') :=
  Eff.bindOfDone (Eff.attemptOfRaised run)

theorem leavingExhausted (run : x w = (.exhausted, w')) :
    fromGenerator x w = (.exhausted, w') :=
  Eff.bindOfExhausted (Eff.attemptOfExhausted run)

theorem leavingEnds {exit : Exit α} (run : fromGenerator x w = (exit, w'))
    (ended : exit ≠ .exhausted) :
    (∃ a, exit = .done a ∧ x w = (.done a, w')) ∨
      ∃ fault : Fault, exit = .raised fault.leaving ∧ x w = (.raised fault, w') := by
  rcases inner : x w with ⟨a | fault | _, v⟩
  · cases (leavingDone inner).symm.trans run
    exact .inl ⟨a, rfl, rfl⟩
  · cases (leavingRaised inner).symm.trans run
    exact .inr ⟨fault, rfl, rfl⟩
  · cases (leavingExhausted inner).symm.trans run
    exact absurd rfl ended

theorem leavingDoneIff {a : α} : fromGenerator x w = (.done a, w') ↔ x w = (.done a, w') := by
  constructor
  · intro run
    rcases leavingEnds run nofun with ⟨_, same, ran⟩ | ⟨_, same, -⟩
    · cases same
      exact ran
    · cases same
  · exact leavingDone

theorem leavingGives {post : α → Prop} (inner : x.Gives post) : (fromGenerator x).Gives post :=
  fun w a w' run => inner w a w' (leavingDoneIff.mp run)

theorem leavingBelow {y : Eff ω α} (inner : Below x y) : Below (fromGenerator x) (fromGenerator y) :=
  inner.attempt.bind fun _ => .refl _

theorem leavingSame {y : Eff ω α} (same : x w = y w') :
    fromGenerator x w = fromGenerator y w' := by
  rcases run : y w' with ⟨a | fault | _, v⟩
  · exact (leavingDone (same.trans run)).trans (leavingDone run).symm
  · exact (leavingRaised (same.trans run)).trans (leavingRaised run).symm
  · exact (leavingExhausted (same.trans run)).trans (leavingExhausted run).symm

theorem leavingAttempt (x : Eff ω α) : fromGenerator x.attempt = x.attempt := by
  funext w
  rcases inner : x w with ⟨a | fault | _, v⟩
  · exact (leavingDone (Eff.attemptOfDone inner)).trans (Eff.attemptOfDone inner).symm
  · exact (leavingDone (Eff.attemptOfRaised inner)).trans (Eff.attemptOfRaised inner).symm
  · exact (leavingExhausted (Eff.attemptOfExhausted inner)).trans
      (Eff.attemptOfExhausted inner).symm

theorem leavingBind (x : Eff ω α) (f : α → Eff ω β) :
    fromGenerator (x >>= f) = fromGenerator x >>= fun a => fromGenerator (f a) := by
  funext w
  rcases head : x w with ⟨a | fault | _, v⟩
  · have whole : (x >>= f) w = f a v := Eff.bindOfDone head
    refine (leavingSame whole).trans ?_
    exact (Eff.bindOfDone (f := fun a => fromGenerator (f a)) (leavingDone head)).symm
  · exact (leavingRaised (Eff.bindOfRaised head)).trans (Eff.bindOfRaised (leavingRaised head)).symm
  · exact (leavingExhausted (Eff.bindOfExhausted head)).trans
      (Eff.bindOfExhausted (leavingExhausted head)).symm

theorem attemptLeaving (x : Eff ω α) (f : Except Fault α → Eff ω β) :
    fromGenerator (x.attempt >>= f) = x.attempt >>= fun a => fromGenerator (f a) := by
  rw [leavingBind, leavingAttempt]

section
variable (eval : Env → Expr → Run Value)

theorem leavingLeave (env : Env) (stack : List Frame) (pending : Option Fault) :
    fromGenerator (leave eval env stack pending) = leave eval env stack pending := by
  induction stack generalizing pending with
  | nil => rfl
  | cons frame stack ih =>
    cases frame with
    | cleanup steps =>
      refine (attemptLeaving (runCleanup eval env steps) _).trans (bind_congr fun result => ?_)
      cases result with
      | ok u => exact ih pending
      | error fault => exact ih (some fault)
    | statements body => exact ih pending
    | loop test body => exact ih pending
    | forEach x items body => exact ih pending

theorem leavingRaising (position : Position) (fault : Fault) :
    fromGenerator (leaveRaising eval position fault : Run α) =
      leave eval position.env position.stack (some fault) >>= fun last =>
        Eff.raise (last.getD fault).leaving := by
  unfold leaveRaising
  rw [leavingBind, leavingLeave]
  rfl

theorem leavingThen (position : Position) (next : Run α) :
    fromGenerator (leaveThen eval position next) =
      leave eval position.env position.stack none >>= fun
        | some fault => Eff.raise fault.leaving
        | none => fromGenerator next := by
  unfold leaveThen
  rw [leavingBind, leavingLeave]
  refine bind_congr fun last => ?_
  cases last <;> rfl

end
end ParseKit.Script
