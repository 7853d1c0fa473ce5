import ParseKit.Fault
import ParseKit.Record
/-!
Evaluation with a store of type `ω`. An evaluation is done with a value, has raised a
fault, or was cut short by its step limit; in every case the changes made to the store
so far stand. Nothing here says what a store holds, except that a `Journal` can take
down records.
-/
namespace ParseKit

inductive Exit (α : Type) where
  | done (value : α)
  | raised (fault : Fault)
  /- The step limit came first; this says nothing about the answer. -/
  | exhausted
  deriving DecidableEq, Repr

def Eff (ω α : Type) : Type := ω → Exit α × ω

namespace Eff
variable {ω α β γ : Type}

@[always_inline, inline] def done (a : α) : Eff ω α := fun w => (.done a, w)

@[always_inline, inline] def raise (f : Fault) : Eff ω α := fun w => (.raised f, w)

def ofExcept : Except Fault α → Eff ω α
  | .ok a => done a
  | .error f => raise f

@[always_inline, inline] def exhausted : Eff ω α := fun w => (.exhausted, w)

@[always_inline, inline] def bind (x : Eff ω α) (f : α → Eff ω β) : Eff ω β := fun w =>
  match x w with
  | (.done a, w) => f a w
  | (.raised e, w) => (.raised e, w)
  | (.exhausted, w) => (.exhausted, w)

@[always_inline] instance : Monad (Eff ω) where
  pure := done
  bind := bind

@[always_inline, inline] def get : Eff ω ω := fun w => (.done w, w)

@[always_inline, inline] def modify (f : ω → ω) : Eff ω Unit := fun w => (.done (), f w)

@[always_inline, inline] def attempt (x : Eff ω α) : Eff ω (Except Fault α) := fun w =>
  match x w with
  | (.done a, w) => (.done (.ok a), w)
  | (.raised f, w) => (.done (.error f), w)
  | (.exhausted, w) => (.exhausted, w)

theorem bindDone (x : Eff ω α) : (x >>= fun a => done a) = x := by
  funext w
  show bind x done w = x w
  unfold bind done
  split <;> simp_all

theorem bindAssoc (x : Eff ω α) (f : α → Eff ω β) (g : β → Eff ω γ) :
    x >>= f >>= g = x >>= fun a => f a >>= g := by
  funext w
  show bind (bind x f) g w = bind x (fun a => bind (f a) g) w
  unfold bind
  cases x w with
  | mk exit w' => cases exit <;> rfl

theorem bindDoneIff {x : Eff ω α} {f : α → Eff ω β} {b : β} {w w' : ω} :
    (x >>= f) w = (.done b, w') ↔ ∃ a v, x w = (.done a, v) ∧ f a v = (.done b, w') := by
  show bind x f w = _ ↔ _
  unfold bind
  rcases x w with ⟨a | e | _, v⟩
  · exact ⟨fun h => ⟨a, v, rfl, h⟩, fun ⟨_, _, h, h'⟩ => by cases h; exact h'⟩
  · simp
  · simp

instance : LawfulMonad (Eff ω) :=
  LawfulMonad.mk' (Eff ω) bindDone (fun _ _ => rfl) bindAssoc

end Eff

class Journal (ω : Type) where
  add : Record → ω → ω

def Eff.report {ω : Type} [Journal ω] (r : Record) : Eff ω Unit :=
  Eff.modify (Journal.add r)

instance : Journal (List Record) where
  add r w := w ++ [r]

end ParseKit
