import ParseKit.Parser.Basic
/-!
A parser applied again and again until it fails. On a text, a parser that shortens it
whenever it succeeds can succeed at most once per character; an application beyond that
repeats forever and ends as exhausted. For other inputs the limit is given.
-/
namespace ParseKit.Parser
variable {σ ω α : Type}

def repeatFrom (p : Parser σ ω α) (limit : Nat) (seen : List α) (input : σ) :
    Eff ω (List α × σ) := do
  match ← p input with
  | .failure => pure (seen.reverse, input)
  | .success v rest =>
    match limit with
    | 0 => Eff.exhausted
    | limit + 1 => repeatFrom p limit (v :: seen) rest

def repeated (limit least : Nat) (p : Parser σ ω α) : Parser σ ω (List α) := fun input => do
  let (values, rest) ← repeatFrom p limit [] input
  if values.length < least then pure .failure else pure (.success values rest)

def many (p : Parser Text ω α) : Parser Text ω (List α) := fun text =>
  repeated text.length 0 p text

def many1 (p : Parser Text ω α) : Parser Text ω (List α) := fun text =>
  repeated text.length 1 p text

def manyText (p : Parser Text ω Text) : Parser Text ω Text := (many p).map List.flatten

def many1Text (p : Parser Text ω Text) : Parser Text ω Text := (many1 p).map List.flatten

end ParseKit.Parser
