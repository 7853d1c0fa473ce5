import ParseKit.Script.DescriptorPart
/-!
The descriptor grammar shown on five texts, one line each: the text, an arrow, and the name
and numbers read or the message of the refusal.
-/
namespace ParseKit
open Script

def sampleTexts : List String :=
  ["point(1.5, -2)", "rgb(255, 128, 0)", "empty()", "broken(1,", "ok(1) extra"]

def sampleLine (text : String) : String :=
  let result :=
    match (parseDescriptor text.toList).exit with
    | .done (.ok v) => v.display
    | .done (.error refusal) => refusal.message
    | .raised fault => fault.message
    | .exhausted => "no answer".toList
  text ++ " -> " ++ String.ofList result

def sampleLines : List String := sampleTexts.map sampleLine

end ParseKit
