import ParseKit.Text.Quoted
/-!
Why an evaluation ends without an outcome. A fault is a cause; its wording is in
`Fault.message` alone. A parser that does not match is no fault.
-/
namespace ParseKit

inductive Kind where
  | int | float | str | bool | none | list | tuple | function | parser | success | failure
  deriving DecidableEq, Repr

def Kind.name : Kind → Text
  | int => "int".toList
  | float => "float".toList
  | str => "str".toList
  | bool => "bool".toList
  | none => "NoneType".toList
  | list => "list".toList
  | tuple => "tuple".toList
  | function => "function".toList
  | parser => "Parser".toList
  | success => "Success".toList
  | failure => "Failure".toList

inductive ErrorClass where
  | callback
  | stopIteration
  | runtime
  | other (name : String)
  deriving DecidableEq, Repr

inductive Fault where
  | notCallable (kind : Kind)
  | lacks (kind : Kind) (part : String)
  | unsupported (operator : String) (left right : Kind)
  | incomparable (operator : String) (left right : Kind)
  | negativeShift
  | notIterable (kind : Kind)
  | notPair (kind : Kind) (parts : Option Nat)
  | unhashable (kind : Kind)
  | notWord (kind : Kind)
  | notWordIn (kind : Kind)
  | notInteger (kind : Kind)
  | notSubscriptable (kind : Kind)
  | argumentCount (given : Nat)
  | unexpectedArgument (name : String)
  | repeatedArgument (name : String)
  | notText (index : Nat) (kind : Kind)
  | notParser (shown : Text)
  | badArguments (function : String)
  | divisionByZero
  | missingArgument (parameter : String)
  | unbound (name : String)
  | raised (kind : ErrorClass) (message : Text)
  deriving DecidableEq, Repr

def Fault.message : Fault → Text
  | notCallable kind => '\'' :: kind.name ++ "' object is not callable".toList
  | lacks kind part =>
    '\'' :: kind.name ++ "' object has no attribute '".toList ++ part.toList ++ ['\'']
  | unsupported operator left right =>
    "unsupported operand type(s) for ".toList ++ operator.toList ++ ": '".toList ++ left.name ++
      "' and '".toList ++ right.name ++ ['\'']
  | incomparable operator left right =>
    '\'' :: operator.toList ++ "' not supported between instances of '".toList ++ left.name ++
      "' and '".toList ++ right.name ++ ['\'']
  | negativeShift => "negative shift count".toList
  | notIterable kind => '\'' :: kind.name ++ "' object is not iterable".toList
  | notPair kind none =>
    "cannot unpack non-iterable ".toList ++ kind.name ++ " object".toList
  | notPair _ (some n) =>
    if n < 2 then
      "not enough values to unpack (expected 2, got ".toList ++ Text.ofInt n ++ [')']
    else "too many values to unpack (expected 2)".toList
  | unhashable kind => "unhashable type: '".toList ++ kind.name ++ ['\'']
  | notWord kind =>
    "startswith first arg must be str or a tuple of str, not ".toList ++ kind.name
  | notWordIn kind => "tuple for startswith must only contain str, not ".toList ++ kind.name
  | notInteger kind =>
    '\'' :: kind.name ++ "' object cannot be interpreted as an integer".toList
  | notSubscriptable kind => '\'' :: kind.name ++ "' object is not subscriptable".toList
  | argumentCount 0 =>
    "Parser.__call__() missing 1 required positional argument: 'text'".toList
  | argumentCount (n + 1) =>
    "Parser.__call__() takes 2 positional arguments but ".toList ++ Text.ofInt (n + 2) ++
      " were given".toList
  | unexpectedArgument name =>
    "Parser.__call__() got an unexpected keyword argument '".toList ++ name.toList ++ ['\'']
  | repeatedArgument name =>
    "Parser.__call__() got multiple values for argument '".toList ++ name.toList ++ ['\'']
  | notText index kind =>
    "sequence item ".toList ++ Text.ofInt index ++ ": expected str instance, ".toList ++
      kind.name ++ " found".toList
  | notParser shown => "do-block yielded ".toList ++ shown ++ ", expected a parser".toList
  | badArguments function => function.toList ++ ": bad arguments".toList
  | divisionByZero => "div: division by zero".toList
  | missingArgument parameter => "missing argument ".toList ++ parameter.toList
  | unbound name => Text.quoted name.toList
  | raised _ message => message

/- What comes out of a generator. A StopIteration would be taken for its return. -/
def Fault.leaving : Fault → Fault
  | raised .stopIteration _ => raised .runtime "generator raised StopIteration".toList
  | fault => fault

end ParseKit
