import ParseKit.Text.Basic
/-!
The six character classes. All are within ASCII: a digit, letter or blank of another
script is in none of them.
-/
namespace ParseKit

inductive CharClass where
  | digit | space | upper | lower | letter | word
  deriving DecidableEq, Repr

namespace CharClass

def blanks : List Char := [' ', '\t', '\n', '\x0b', '\x0c', '\r']

def holds : CharClass → Char → Bool
  | digit, c => c.isDigit
  | space, c => blanks.contains c
  | upper, c => c.isUpper
  | lower, c => c.isLower
  | letter, c => c.isUpper || c.isLower
  | word, c => c.isUpper || c.isLower || c.isDigit || c == '_'

def name : CharClass → String
  | digit => "is_digit"
  | space => "is_space"
  | upper => "is_upper"
  | lower => "is_lower"
  | letter => "is_letter"
  | word => "is_alphanum"

def all : List CharClass := [digit, space, upper, lower, letter, word]

def accepts (k : CharClass) : Text → Bool
  | [c] => k.holds c
  | _ => false

end CharClass
end ParseKit
