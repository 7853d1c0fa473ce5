import ParseKit.Text.Basic
/-!
Records: what parsers report about their own work, and the wording of each report. Inputs
and rests stand in records as they are shown.
-/
namespace ParseKit

inductive Record where
  | passed (label front : Text) (more : Bool)
  | failed (source input : Text)
  | stopped (source input rest : Text)
  deriving DecidableEq, Repr

namespace Record

def window : Nat := 30

def message : Record → Text
  | passed label front more =>
    label ++ ": \"".toList ++ front ++ (if more then "...".toList else []) ++ ['"']
  | failed source input =>
    "Parse of ".toList ++ source ++ ' ' :: input ++ " failed".toList
  | stopped source input rest =>
    "Parse of ".toList ++ source ++ ' ' :: input ++ " stopped before ".toList ++ rest

end Record
end ParseKit
