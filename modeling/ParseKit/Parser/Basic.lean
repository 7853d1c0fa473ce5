import ParseKit.Effect
/-!
Parsers: evaluations that read the front of an input, most often of a text. Sequencing hands
the rest of the input on; choice tries its second parser on the same input. Whether a parser
stops, and that it reads from the front only, is not part of its type.
-/
namespace ParseKit

inductive Outcome (σ α : Type) where
  | failure
  | success (value : α) (rest : σ)
  deriving DecidableEq, Repr

namespace Outcome
variable {σ α : Type}

def isSuccess : Outcome σ α → Bool
  | failure => false
  | success _ _ => true

end Outcome

def Parser (σ ω α : Type) : Type := σ → Eff ω (Outcome σ α)

namespace Parser
variable {σ ω α β γ : Type}

@[always_inline, inline] def ret (v : α) : Parser σ ω α := fun input => pure (.success v input)

@[always_inline, inline] def fail : Parser σ ω α := fun _ => pure .failure

@[always_inline, inline] def bind (p : Parser σ ω α) (f : α → Parser σ ω β) :
    Parser σ ω β := fun input => do
  match ← p input with
  | .failure => pure .failure
  | .success v rest => f v rest

@[always_inline, inline] def alt (a b : Parser σ ω α) : Parser σ ω α := fun input => do
  match ← a input with
  | .failure => b input
  | .success v rest => pure (.success v rest)

@[always_inline, inline] def mapM (p : Parser σ ω α) (f : α → Eff ω β) :
    Parser σ ω β := fun input => do
  match ← p input with
  | .failure => pure .failure
  | .success v rest => return .success (← f v) rest

@[always_inline, inline] def map (p : Parser σ ω α) (f : α → β) : Parser σ ω β :=
  p.mapM fun v => pure (f v)

def filterM (p : Parser σ ω α) (test : α → Eff ω Bool) : Parser σ ω α :=
  p.bind fun v rest => do
    if ← test v then ret v rest else fail rest

theorem bindAssoc (p : Parser σ ω α) (f : α → Parser σ ω β) (g : β → Parser σ ω γ) :
    (p.bind f).bind g = p.bind fun v => (f v).bind g := by
  funext input
  refine (Eff.bindAssoc (p input) _ _).trans ?_
  exact congrArg (Eff.bind (p input)) (funext fun o => by cases o <;> rfl)

end Parser
end ParseKit
