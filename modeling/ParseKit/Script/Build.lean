import ParseKit.Script.Display
import ParseKit.Script.Operator
/-!
Parsers built from their operands. Building never applies anything, and most notations
accept an operand that is no parser. Some use an operation that only parsers have, and
refuse such an operand.
-/
namespace ParseKit.Script

def Atom.value (a : Atom) : Value :=
  .parser (.atom a) <|
    match a with
    | item => .leaf .item
    | fail => .leaf .fail
    | eof => .leaf .eof
    | num => .leaf .num
    | ofClass k => .leaf (.ofClass k)
    | spaces => .repeated 0 .joined (.parser (.atom (.ofClass .space)) (.leaf (.ofClass .space)))
    | spaces1 => .repeated 1 .joined (.parser (.atom (.ofClass .space)) (.leaf (.ofClass .space)))

def Value.built (operand : Value) (operation : String) (g : Grammar) : Except Fault Made :=
  match operand with
  | .parser .. => .ok (.parser g)
  | v => .error (.lacks v.kind operation)

def buildOption (default operand : Value) : Except Fault Made :=
  match operand with
  | .parser .. => .ok (.parser (.option default operand))
  | v => .error (.unsupported Bitwise.bar.symbol v.kind .parser)

/- Alternatives from first to last. A single one is left as it is. -/
def buildChoice : List Value → Except Fault Made
  | [] => .ok (.value Atom.fail.value)
  | [v] => .ok (.value v)
  | .parser m g :: vs => .ok (.parser (.choice (.parser m g :: vs)))
  | v :: vs => (vs.foldlM Bitwise.bar.calculate v).map .value

def Value.alternatives (v : Value) : Except Fault (List Value) :=
  match v with
  | .str _ | .list _ | .tuple _ => v.elements
  | v => if v.truth then .error (.notSubscriptable v.kind) else .ok []

def Value.members (v : Value) : Except Fault (List Value) := do
  (← v.elements).mapM Value.hashed

def Unary.build : Unary → Value → Except Fault Made
  | ret, v => .ok (.parser (.ret v))
  | char, v => .ok (.parser (.char v))
  | string, v => .ok (.parser (.string v))
  | oneOf, v => do return .parser (.oneOf (← v.members))
  | noneOf, v => do return .parser (.noneOf (← v.members))
  | sat, v => .ok (.parser (.sat v))
  | many, v => .ok (.parser (.repeated 0 .asList v))
  | many1, v => .ok (.parser (.repeated 1 .asList v))
  | manyText, v => .ok (.parser (.repeated 0 .joined v))
  | many1Text, v => .ok (.parser (.repeated 1 .joined v))
  | skipMany, v => .ok (.parser (.repeated 0 .dropped v))
  | sequenceText, v => do return .parser (.sequenceText (← v.elements))
  | choice, v => do buildChoice (← v.alternatives)
  | optionMaybe, v => buildOption .none v
  | optional, v => v.built "bind" (.optional v)
  | trace, v => .ok (.parser (.trace v.plain))

/- So many values of an operand. A number that is no integer is refused on application,
and only if it is positive; a NaN counts as positive here. -/
def buildCount (amount operand : Value) : Except Fault Made :=
  match amount with
  | .float x =>
    if x.isNaN || (Value.int 0).numberLess (.float x) then
      .ok (.parser (.raising (.notInteger .float)))
    else .ok (.parser (.count 0 operand))
  | v =>
    match v.integer? with
    | some n => .ok (.parser (.count n operand))
    | none => .error (.incomparable "<=" v.kind .int)

def Binary.build : Binary → Value → Value → Except Fault Made
  | bind, a, b => a.built "bind" (.bind a b)
  | map, a, b => a.built "map" (.map a b)
  | andThen, a, b => Bitwise.shift.combine a b
  | alt, a, b => Bitwise.bar.combine a b
  | pair, a, b => Bitwise.ampersand.combine a b
  | keepRight, a, b => Comparison.greater.combine a b
  | keepLeft, a, b => Comparison.less.combine a b
  | count, a, b => buildCount a b
  | option, a, b => buildOption a b
  | sepBy, a, b => a.built "bind" (.sepBy a b)
  | sepBy1, a, b => a.built "bind" (.sepBy1 a b)
  | chainl1, a, b => .ok (.parser (.chainl1 a b))

def buildBetween (opening closing inner : Value) : Except Fault Made :=
  opening.built "bind" (.between opening closing inner)

end ParseKit.Script
