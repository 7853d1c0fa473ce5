import ParseKit.Parser.Basic
/-!
Parsers one after another, each on what the one before left. If one fails, the whole
fails and the parsers behind it are not applied.
-/
namespace ParseKit.Parser
variable {σ ω α β γ : Type}

def pair (a : Parser σ ω α) (b : Parser σ ω β) : Parser σ ω (α × β) := fun input => do
  match ← a input with
  | .failure => pure .failure
  | .success x rest =>
    match ← b rest with
    | .failure => pure .failure
    | .success y rest => pure (.success (x, y) rest)

def keepRight (a : Parser σ ω α) (b : Parser σ ω β) : Parser σ ω β := a.bind fun _ => b

def keepLeft (a : Parser σ ω α) (b : Parser σ ω β) : Parser σ ω α :=
  a.bind fun x => b.map fun _ => x

def between (opening : Parser σ ω α) (closing : Parser σ ω β) (p : Parser σ ω γ) :
    Parser σ ω γ :=
  opening.bind fun _ => p.bind fun x => closing.bind fun _ => ret x

def sequenceFrom (seen : List α) : List (Parser σ ω α) → Parser σ ω (List α)
  | [] => ret seen.reverse
  | p :: more => p.bind fun v => sequenceFrom (v :: seen) more

def sequence (ps : List (Parser σ ω α)) : Parser σ ω (List α) := sequenceFrom [] ps

def sequenceText (ps : List (Parser σ ω Text)) : Parser σ ω Text :=
  (sequence ps).map List.flatten

theorem bindMap (p : Parser σ ω α) (f : α → Parser σ ω β) (g : β → γ) :
    (p.bind f).map g = p.bind fun v => (f v).map g := by
  funext input
  refine (Eff.bindAssoc (p input) _ _).trans (bind_congr fun o => ?_)
  cases o <;> rfl

theorem retMap (v : α) (g : α → β) : (ret v : Parser σ ω α).map g = ret (g v) := rfl

theorem sequenceTextPair (a b : Parser σ ω Text) :
    sequenceText [a, b] = a.bind fun v => b.bind fun w => ret (v ++ w) := by
  simp [sequenceText, sequence, sequenceFrom, bindMap, retMap]

theorem sequenceTextTriple (a b c : Parser σ ω Text) : sequenceText [a, b, c] =
    a.bind fun v => b.bind fun w => c.bind fun u => ret (v ++ (w ++ u)) := by
  simp [sequenceText, sequence, sequenceFrom, bindMap, retMap]

def countFrom (p : Parser σ ω α) (seen : List α) : Nat → Parser σ ω (List α)
  | 0 => ret seen.reverse
  | n + 1 => p.bind fun v => countFrom p (v :: seen) n

def count (n : Int) (p : Parser σ ω α) : Parser σ ω (List α) := countFrom p [] n.toNat

end ParseKit.Parser
