import ParseKit.Binary64.Shortest
import ParseKit.Script.Value
import ParseKit.Text.Quoted
/-!
Values as text. Texts are quoted, numbers have the fewest digits, lists stand in brackets
and tuples in parentheses. Functions and parsers are shown by their kind only.
-/
namespace ParseKit.Script.Value

mutual

def display : Value → Text
  | none => "None".toList
  | bool true => "True".toList
  | bool false => "False".toList
  | int n => Text.ofInt n
  | float x => x.render
  | str s => s.quoted
  | list vs => '[' :: Text.commas (displayAll vs) ++ [']']
  | tuple [v] => '(' :: v.display ++ [',', ')']
  | tuple vs => '(' :: Text.commas (displayAll vs) ++ [')']
  | builtin b => '<' :: b.name.toList ++ ['>']
  | lambda .. | blockFn .. => "<function>".toList
  | parser .. => "<parser>".toList
  | failure => "FAILURE".toList
  | success v rest =>
    "Success(value=".toList ++ v.display ++ ", remaining=".toList ++ rest.display ++ [')']

def displayAll : List Value → List Text
  | [] => []
  | v :: vs => v.display :: displayAll vs

end

def plain : Value → Text
  | str s => s
  | v => v.display

end ParseKit.Script.Value
