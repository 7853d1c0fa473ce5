import ParseKit.Text.Basic
import ParseKit.Text.Printable
/-!
Text between quotes. The quote is a double one if the text holds single quotes and no
double ones, otherwise a single one. The quote in use and the backslash are escaped, and
so are unprintable characters: by a letter for tab, line feed and carriage return, by
their code in hexadecimal otherwise.
-/
namespace ParseKit.Text

def hex (width n : Nat) : Text :=
  let digits := Nat.toDigits 16 n
  List.replicate (width - digits.length) '0' ++ digits

def escape (quote c : Char) : Text :=
  if c = quote ∨ c = '\\' then ['\\', c]
  else if c = '\n' then ['\\', 'n']
  else if c = '\r' then ['\\', 'r']
  else if c = '\t' then ['\\', 't']
  else if printable c then [c]
  else if c.toNat < 0x100 then '\\' :: 'x' :: hex 2 c.toNat
  else if c.toNat < 0x10000 then '\\' :: 'u' :: hex 4 c.toNat
  else '\\' :: 'U' :: hex 8 c.toNat

def quoteFor (text : Text) : Char :=
  if text.contains '\'' && !text.contains '"' then '"' else '\''

def quoted (text : Text) : Text :=
  let quote := quoteFor text
  quote :: text.flatMap (escape quote) ++ [quote]

example : quoted ['a', '\''] = ['"', 'a', '\'', '"'] := by decide +kernel
example : quoted ['\'', '"'] = ['\'', '\\', '\'', '"', '\''] := by decide +kernel
example : quoted ['\n', '\x00'] = ['\'', '\\', 'n', '\\', 'x', '0', '0', '\''] := by decide +kernel

end ParseKit.Text
