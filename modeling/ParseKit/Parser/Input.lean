import ParseKit.Parser.Basic
import ParseKit.Refusal
/-!
The end of the input, trace points, and parses of a whole input. The last say why they give
no value, and each such refusal is recorded.
-/
namespace ParseKit.Parser
variable {σ ω α : Type}

def eof : Parser Text ω Unit
  | [] => pure (.success () [])
  | _ :: _ => pure .failure

def trace [Journal ω] (label : Text) : Parser Text ω Unit := fun text => do
  Eff.report (.passed label (text.take Record.window) !(text.drop Record.window).isEmpty)
  pure (.success () text)

def inputWord : Text := "input".toList

def wholeInput [Journal ω] [Shown σ] (p : Parser σ ω α) (source : Text) (input : σ) :
    Eff ω (Except (Refusal σ) α) := do
  match ← p input with
  | .failure =>
    Eff.report (.failed source (Shown.quoted input))
    return .error (.mismatch input source)
  | .success v rest =>
    if Shown.isEnd rest then return .ok v
    Eff.report (.stopped source (Shown.quoted input) (Shown.quoted rest))
    return .error (.leftover input rest source)

end ParseKit.Parser
