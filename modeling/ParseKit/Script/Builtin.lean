import ParseKit.Fault
import ParseKit.Text.CharClass
/-!
The built-in functions of scripts, by name. What each does to its arguments is said where
values are known.
-/
namespace ParseKit.Script

inductive Builtin where
  | identity | int | str | len | neg | upper | rev | fst | snd
  | add | sub | mul | div | pair | append | join | not | eq | lt
  | log
  | raise (kind : ErrorClass := .callback)
  | holds (k : CharClass)
  deriving DecidableEq, Repr

namespace Builtin

def name : Builtin → String
  | identity => "id"
  | int => "int"
  | str => "str"
  | len => "len"
  | neg => "neg"
  | upper => "upper"
  | rev => "rev"
  | fst => "fst"
  | snd => "snd"
  | add => "add"
  | sub => "sub"
  | mul => "mul"
  | div => "div"
  | pair => "pair"
  | append => "append"
  | join => "join"
  | not => "not"
  | eq => "eq"
  | lt => "lt"
  | log => "log"
  | raise _ => "raise"
  | holds k => k.name

def all : List Builtin :=
  [identity, int, str, len, neg, upper, rev, fst, snd, add, sub, mul, div, pair, append, join,
    not, eq, lt, log, raise] ++ CharClass.all.map holds

def named? (x : String) : Option Builtin := all.find? fun b => b.name == x

end Builtin
end ParseKit.Script
