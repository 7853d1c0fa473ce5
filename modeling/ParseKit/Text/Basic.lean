/-!
Text as a list of characters, one per code point. Main statement: removing a leading
word is the converse of putting it in front (`afterWordIff`). Nothing here
knows about bytes or about other ways to count characters.
-/
namespace ParseKit

abbrev Text := List Char

namespace Text

def afterWord? : (text word : Text) → Option Text
  | text, [] => some text
  | [], _ :: _ => none
  | d :: text, c :: word => if c = d then afterWord? text word else none

theorem afterWordIff {text word rest : Text} :
    afterWord? text word = some rest ↔ text = word ++ rest := by
  induction word generalizing text with
  | nil => simp [afterWord?]
  | cons c word ih =>
    cases text with
    | nil => simp [afterWord?]
    | cons d text =>
      by_cases same : c = d
      · subst same; simp [afterWord?, ih]
      · simp [afterWord?, same, Ne.symm same]

def ofInt (n : Int) : Text := (toString n).toList

def digitsFrom (start : Nat) (digits : Text) : Nat :=
  digits.foldl (fun n c => n * 10 + (c.toNat - '0'.toNat)) start

def toNat (digits : Text) : Nat := digitsFrom 0 digits

theorem digitsFromAppend (start : Nat) (a b : Text) :
    digitsFrom start (a ++ b) = digitsFrom (digitsFrom start a) b := by
  simp [digitsFrom]

def commas (parts : List Text) : Text := [',', ' '].intercalate parts

def upper (text : Text) : Text := text.map Char.toUpper

def less : Text → Text → Bool
  | _, [] => false
  | [], _ :: _ => true
  | c :: s, d :: t => c.toNat < d.toNat || c == d && less s t

end Text
end ParseKit
