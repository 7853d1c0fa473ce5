import ParseKit.Parser.Character
import ParseKit.Parser.Input
import ParseKit.Parser.Number
import ParseKit.Parser.Repetition
import ParseKit.Script.Calculation
import ParseKit.Script.Display
/-!
What the parsers without operands do to the values they are applied to. Texts are read by
the parsers of the library. Lists and tuples are read element by element in the same way.
Of other values those that count as false are at their end; the rest cannot be read.
-/
namespace ParseKit.Script
variable {ω : Type}

def reading {α : Type} (onTexts : Parser Text ω α) (value : α → Value)
    (onOthers : Parser Value ω Value) : Parser Value ω Value
  | .str text => do
    match ← onTexts text with
    | .failure => pure .failure
    | .success v rest => pure (.success (value v) (.str rest))
  | v => onOthers v

def element : Parser Value ω Value
  | .list (v :: vs) => pure (.success v (.list vs))
  | .tuple (v :: vs) => pure (.success v (.tuple vs))
  | v => if v.truth then Eff.raise (.notSubscriptable v.kind) else pure .failure

def Value.ofChar (c : Char) : Value := .str [c]

def item : Parser Value ω Value := reading Parser.item .ofChar element

def elementEqual (v : Value) : Parser Value ω Value :=
  element.filterM fun w => pure (w.equal v && !v.isNaN)

def elementHashed (test : Value → Bool) : Parser Value ω Value :=
  element.filterM fun v => do return test (← Eff.ofExcept v.hashed)

def charEqual (c : Value) : Parser Value ω Value :=
  reading (Parser.oneOf (Value.characters [c])) .ofChar (elementEqual c)

def oneOf (members : List Value) : Parser Value ω Value :=
  reading (Parser.oneOf (Value.characters members)) .ofChar
    (elementHashed fun v => members.any v.equal)

def noneOf (members : List Value) : Parser Value ω Value :=
  reading (Parser.noneOf (Value.characters members)) .ofChar
    (elementHashed fun v => !members.any v.equal)

def ofClass (k : CharClass) : Parser Value ω Value :=
  reading (Parser.ofClass k) .ofChar (elementHashed (·.isIn k))

def elementText (c : Char) : Parser Value ω Text :=
  (elementEqual (.ofChar c)).map fun v => Value.characters [v]

def elementDigits (limit least : Nat) : Parser Value ω Text :=
  (Parser.repeated limit least (elementHashed (·.isIn .digit))).map Value.characters

def elementNum (limit : Nat) : Parser Value ω Value :=
  ((Parser.numeralOf (elementText '-') (elementText '.') (elementDigits limit 0)
    (elementDigits limit 1)).bind (Parser.converted Binary64.ofText?)).map fun x => .float x

def num (limit : Nat) : Parser Value ω Value :=
  reading Parser.num (fun x => .float x) (elementNum limit)

def eof : Parser Value ω Value :=
  reading Parser.eof (fun _ => .none) fun v =>
    if v.truth then pure .failure else pure (.success .none v)

/- The first of some words that a text starts with. Any of the words being there, as many
characters are taken as there are words. -/
def anyWord (words : List Value) (text : Text) : List Value → Eff ω (Outcome Value Value)
  | [] => pure .failure
  | .str w :: more =>
    match text.afterWord? w with
    | some _ => pure (.success (.tuple words) (.str (text.drop words.length)))
    | none => anyWord words text more
  | v :: _ => Eff.raise (.notWordIn v.kind)

def string (word : Value) : Parser Value ω Value
  | .str text =>
    match word with
    | .str w => reading (Parser.string w) .str Parser.fail (.str text)
    | .tuple words => anyWord words text words
    | v => Eff.raise (.notWord v.kind)
  | v => Eff.raise (.lacks v.kind "startswith")

def traceElements [Journal ω] (label : Text) (make : List Value → Value) (vs : List Value) :
    Eff ω (Outcome Value Value) := do
  Eff.report (.passed label (make (vs.take Record.window)).display
    !(vs.drop Record.window).isEmpty)
  pure (.success .none (make vs))

def trace [Journal ω] (label : Text) : Parser Value ω Value :=
  reading (Parser.trace label) (fun _ => .none) fun
    | .list vs => traceElements label .list vs
    | .tuple vs => traceElements label .tuple vs
    | v => Eff.raise (.notSubscriptable v.kind)

def Leaf.parser (limit : Nat) : Leaf → Parser Value ω Value
  | item => Script.item
  | fail => Parser.fail
  | eof => Script.eof
  | num => Script.num limit
  | ofClass k => Script.ofClass k

end ParseKit.Script
