import ParseKit.Script.Builtin
import ParseKit.Binary64.Basic
/-!
Scripts: expressions that build values, parsers among them, and blocks of statements that
apply parsers one after another. Scripts are trees; their written form is not fixed here.
-/
namespace ParseKit.Script

inductive Literal where
  | none
  | bool (b : Bool)
  | int (n : Int)
  | float (x : Binary64)
  | str (s : Text)
  deriving DecidableEq, Repr

inductive Atom where
  | item | fail | eof | num
  | ofClass (k : CharClass)
  | spaces | spaces1
  deriving DecidableEq, Repr

inductive Unary where
  | ret | char | string | oneOf | noneOf | sat
  | many | many1 | manyText | many1Text | skipMany
  | sequenceText | choice | optionMaybe | optional | trace
  deriving DecidableEq, Repr

inductive Binary where
  | bind
  | map
  | andThen
  | alt | pair | keepRight | keepLeft
  | count
  | option
  | sepBy | sepBy1
  | chainl1
  deriving DecidableEq, Repr

mutual

inductive Expr where
  | lit (l : Literal)
  | list (items : List Expr)
  | tuple (items : List Expr)
  | var (name : String)
  | builtin (b : Builtin)
  | call (function : Expr) (args : List Expr) (named : List (String × Expr))
  | lambda (params : List String) (body : Expr)
  | cond (test yes no : Expr)
  | blockFn (params : List String) (body : List Stmt)
  | atom (a : Atom)
  | unary (op : Unary) (a : Expr)
  | binary (op : Binary) (a b : Expr)
  | between (opening closing inner : Expr)
  | lazy (tag : Option Text) (body : Expr)
  | run (body : List Stmt)

inductive Stmt where
  | yield (parser : Expr) (into : Option String)
  | assign (x : String) (value : Expr)
  | ret (value : Expr)
  | log (value : Expr)
  | raise (message : Expr) (kind : ErrorClass := .callback)
  | cond (test : Expr) (yes no : List Stmt)
  | loop (test : Expr) (body : List Stmt)
  | forEach (x : String) (items : Expr) (body : List Stmt)
  | protect (body : List Stmt) (cleanup : List Cleanup)

inductive Cleanup where
  | log (value : Expr)
  | raise (message : Expr) (kind : ErrorClass := .callback)

end

end ParseKit.Script
