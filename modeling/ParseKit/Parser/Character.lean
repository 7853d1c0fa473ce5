import ParseKit.Parser.Basic
import ParseKit.Text.CharClass
/-!
Parsers of one character of a text, chosen by a test, and of a given word. Characters are
compared as they are: no case is folded and no combining sequence is composed.
-/
namespace ParseKit.Parser
variable {ω : Type}

def item : Parser Text ω Char
  | [] => pure .failure
  | c :: rest => pure (.success c rest)

def sat (test : Char → Bool) : Parser Text ω Char := item.filterM fun c => pure (test c)

def char (c : Char) : Parser Text ω Char := sat (· == c)

def oneOf (cs : List Char) : Parser Text ω Char := sat cs.contains

def noneOf (cs : List Char) : Parser Text ω Char := sat fun c => !cs.contains c

def ofClass (k : CharClass) : Parser Text ω Char := sat k.holds

def string (word : Text) : Parser Text ω Text := fun text =>
  match text.afterWord? word with
  | some rest => pure (.success word rest)
  | none => pure .failure

end ParseKit.Parser
