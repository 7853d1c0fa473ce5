import ParseKit.Parser.Choice
import ParseKit.Parser.Repetition
import ParseKit.Parser.Sequence
/-!
Operands with separators or operators between them. A separator or operator without an
operand behind it is left in the input.
-/
namespace ParseKit.Parser
variable {σ ω α β : Type}

def sepBy1Within (limit : Nat) (p : Parser σ ω α) (sep : Parser σ ω β) :
    Parser σ ω (List α) :=
  p.bind fun x => (repeated limit 0 (sep.keepRight p)).bind fun xs => ret (x :: xs)

def sepByWithin (limit : Nat) (p : Parser σ ω α) (sep : Parser σ ω β) :
    Parser σ ω (List α) :=
  alt (sepBy1Within limit p sep) (ret [])

/- Goes on from `value` while an operator and an operand follow, for `limit` rounds at
most. Rounds that shorten a text are no more than its characters; others can still come to
an end, as the function of an operator may raise. -/
def chainFrom (p : Parser σ ω α) (op : Parser σ ω (α → α → Eff ω α)) (limit : Nat)
    (value : α) (input : σ) : Eff ω (α × σ) := do
  match ← op input with
  | .failure => pure (value, input)
  | .success f operand =>
    match ← p operand with
    | .failure => pure (value, input)
    | .success right rest =>
      let value ← f value right
      match limit with
      | 0 => Eff.exhausted
      | limit + 1 => chainFrom p op limit value rest

def chainAfter (limit : Nat) (p : Parser σ ω α) (op : Parser σ ω (α → α → Eff ω α))
    (first : α) : Parser σ ω α := fun input => do
  let (value, rest) ← chainFrom p op limit first input
  pure (.success value rest)

end ParseKit.Parser
