import ParseKit.Proofs.Exchange.Telling
import ParseKit.Proofs.History.Afresh

/-! Wary calls in code without marks, which build the parsers of cells anew. Where they end so do the
calls that are not wary, with the same answer. -/
namespace ParseKit.Script
open Eff (Below)

def forceWary (limit : Nat) (id : Name) : Run Value :=
  Run.hush true (renew (evalMarked .clear (callFunctionMarked .clear limit)) id)

/-- Wary calls that build the parsers of cells anew. -/
def callWary : Nat → Caller := callMarked .clear fun _ => forceWary

theorem callPlaceBelow {c d : Caller} (calls : CallerBelow c d) (limit : Nat) (f : Value)
    (args : List Value) (named : Env) :
    Below (callPlace .clear c limit f args named) (callWith d limit f args named) := by
  have same := callWithBelow calls (Nat.le_refl limit) f args named
  cases f with
  | lambda name params body env =>
    simp only [callPlace, callWith]
    cases Env.bindAll env named params args with
    | ok env => exact evalCheckedBelow calls env body
    | error x => exact .refl _
  | _ => exact same

theorem functionsWaryBelow (limit : Nat) :
    CallerBelow (callFunctionMarked .clear limit) (callFunction limit) := by
  induction limit with
  | zero => exact fun _ _ _ => .exhausted _
  | succ limit ih =>
    intro f args named
    by_cases parser : ∃ mark g, f = .parser mark g
    · obtain ⟨mark, g, rfl⟩ := parser
      exact .exhausted _
    · have other : ∀ mark g, f ≠ .parser mark g := by simpa using parser
      rw [callFunctionMarkedOther other, callFunctionOther other]
      exact callPlaceBelow ih limit f args named

theorem forceWaryBelow (limit : Nat) (id : Name) : Below (forceWary limit id) (forceAnew limit id) :=
  hushBelow true (renewBelow (fun env e => evalCheckedBelow (functionsWaryBelow limit) env e) id)

theorem grammarWaryBelow {limit : Nat} (calls : CallerBelow (callWary limit) (callAnew limit))
    (mark : Mark) (g : Grammar) (text : Text) :
    Below (callWary (limit + 1) (.parser mark g) [.str text] [])
      (callAnew (limit + 1) (.parser mark g) [.str text] []) := by
  have applies : ApplierBelow (applyBy (callWary limit)) (applyBy (callAnew limit)) :=
    fun p x => calls p [x] []
  have plain := applyWithBelow applies calls (Nat.le_refl limit) g (.str text)
  cases g with
  | shared id => exact (forceWaryBelow limit id).bind fun p => applies p (.str text)
  | block env body =>
    have evals : EvalBelow (evalMarked .clear (callWary limit)) (evalWith (callAnew limit)) :=
      fun env e => evalCheckedBelow calls env e
    have reads : ∀ p, Parser.Below (readParts (applyBy (callWary limit)) p)
        (readParts (applyBy (callAnew limit)) p) := readByBelow applies Value.outcomeByParts
    exact giveBelow (driveBelow evals reads (Nat.le_refl limit) env [.statements body]) (.str text)
  | _ => exact plain

theorem callWaryBelow (limit : Nat) : CallerBelow (callWary limit) (callAnew limit) := by
  induction limit with
  | zero => exact fun _ _ _ => .exhausted _
  | succ limit calls =>
    intro f args named
    by_cases parser : ∃ mark g, f = .parser mark g
    · obtain ⟨mark, g, rfl⟩ := parser
      rw [callWary, callMarkedSole rfl, callAnew, callForcingSole rfl]
      refine (Below.refl _).bind fun x => ?_
      cases x with
      | str text => exact grammarWaryBelow calls mark g text
      | _ => exact .exhausted _
    · have other : ∀ mark g, f ≠ .parser mark g := by simpa using parser
      rw [callWary, callMarkedOther other, callAnew, callForcingOther _ fun mark id => other mark _]
      exact callPlaceBelow calls limit f args named

end ParseKit.Script
