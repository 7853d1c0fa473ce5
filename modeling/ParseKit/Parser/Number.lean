import ParseKit.Parser.Character
import ParseKit.Parser.Choice
import ParseKit.Parser.Repetition
import ParseKit.Parser.Sequence
import ParseKit.Binary64.Numeral
/-!
Numbers in decimal notation: `-12.5`, `3`, `-.5`. Of `7.` only the `7` is read, as a point
needs a digit behind it. The text of the numeral is put together first and then converted. What
cannot be converted, or to no finite number, fails.
-/
namespace ParseKit.Parser
variable {σ ω : Type}

def single (p : Parser σ ω Char) : Parser σ ω Text := p.map fun c => [c]

def numeralOf (minus point digits digits1 : Parser σ ω Text) : Parser σ ω Text :=
  sequenceText [option [] minus, digits, option [] (sequenceText [point, digits1])]

theorem numeralOfBind (minus point digits digits1 : Parser σ ω Text) :
    numeralOf minus point digits digits1 = (option [] minus).bind fun sign =>
      digits.bind fun whole =>
        (option [] (point.bind fun dot => digits1.bind fun more => ret (dot ++ more))).bind
          fun fraction => ret (sign ++ (whole ++ fraction)) := by
  rw [numeralOf, sequenceTextTriple, sequenceTextPair]

def converted (float : Text → Option Binary64) (text : Text) : Parser σ ω Binary64 :=
  match float text with
  | none => fail
  | some x => if x.isFinite then ret x else fail

theorem convertedCases (float : Text → Option Binary64) (text : Text) :
    (∀ σ ω, (converted float text : Parser σ ω _) = fail) ∨
      ∃ x, ∀ σ ω, (converted float text : Parser σ ω _) = ret x := by
  unfold converted
  split
  · exact .inl fun _ _ => rfl
  · split
    · exact .inr ⟨_, fun _ _ => rfl⟩
    · exact .inl fun _ _ => rfl

def numeral : Parser Text ω Text :=
  numeralOf (single (char '-')) (single (char '.')) (manyText (single (ofClass .digit)))
    (many1Text (single (ofClass .digit)))

def numBy (float : Text → Option Binary64) : Parser Text ω Binary64 :=
  numeral.bind (converted float)

def num : Parser Text ω Binary64 := numBy Binary64.ofText?

end ParseKit.Parser
