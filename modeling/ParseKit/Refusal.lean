import ParseKit.Text.Quoted
/-!
Why a parse of a whole input gives no value. A refusal is an answer and no fault: the parser
has ended by itself. Its wording is in `Refusal.message` alone.
-/
namespace ParseKit

class Shown (σ : Type) where
  isEnd : σ → Bool
  plain : σ → Text
  quoted : σ → Text

instance : Shown Text where
  isEnd text := text.isEmpty
  plain text := text
  quoted := Text.quoted

inductive Refusal (σ : Type) where
  | incomplete (message : Text) (input : σ)
  | mismatch (input : σ) (source : Text)
  | leftover (input rest : σ) (source : Text)
  deriving DecidableEq, Repr

def Refusal.map {σ τ : Type} (f : σ → τ) : Refusal σ → Refusal τ
  | incomplete message input => .incomplete message (f input)
  | mismatch input source => .mismatch (f input) source
  | leftover input rest source => .leftover (f input) (f rest) source

def Refusal.message {σ : Type} [Shown σ] : Refusal σ → Text
  | incomplete message _ => message
  | mismatch input source =>
    "Syntax error in ".toList ++ source ++ ": \"".toList ++ Shown.plain input ++ ['"']
  | leftover input rest source =>
    "In ".toList ++ source ++ " \"".toList ++ Shown.plain input ++
      "\": expected end of input, saw \"".toList ++ Shown.plain rest ++ ['"']

end ParseKit
