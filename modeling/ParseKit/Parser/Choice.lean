import ParseKit.Parser.Basic
/-!
Parsers in the place of which nothing may be read.
-/
namespace ParseKit.Parser
variable {σ ω α : Type}

def option (default : α) (p : Parser σ ω α) : Parser σ ω α := alt p (ret default)

def optional (p : Parser σ ω α) : Parser σ ω Unit := alt (p.bind fun _ => ret ()) (ret ())

end ParseKit.Parser
