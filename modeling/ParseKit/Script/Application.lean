import ParseKit.Parser.Separated
import ParseKit.Script.Block
import ParseKit.Script.Subject
/-!
Calls, of functions and of parsers. A parser is applied by calling it with what it is to
read, and what comes back is a value. Most parsers read the values that come back from their
operands as outcomes, and are the parsers of the library on them; alternatives and the last
parser of a sequence are passed on as they are. An operand that cannot be called is a fault
when it is applied and not before. Texts are joined only when all of them are there.
-/
namespace ParseKit.Script

def joinTexts {ω : Type} (vs : List Value) : Eff ω Value :=
  match allTexts 0 vs with
  | .ok texts => pure (.str texts.flatten)
  | .error (index, kind) => Eff.raise (.notText index kind)

def Collect.apply {ω : Type} : Collect → List Value → Eff ω Value
  | asList, vs => pure (.list vs)
  | joined, vs => joinTexts vs
  | dropped, _ => pure .none

def build (eval : Env → Expr → Run Value) (tag : Option Text) (body : Expr) (env : Env) :
    Run Value := do
  match tag with
  | some t => Run.note (.str t)
  | none => pure ()
  eval env body

/- The parser in a cell, built now if it has not been before. Building that raises leaves
the cell as it is. -/
def force (eval : Env → Expr → Run Value) (id : Name) : Run Value := do
  match ← Run.cell? id with
  | none => Eff.exhausted
  | some ⟨_, _, _, _, some v⟩ => pure v
  | some ⟨_, tag, body, env, none⟩ =>
    Run.fill id (← Run.building id (build eval tag body env))

abbrev Applier : Type := Value → Value → Run Value

section
variable (apply : Applier)

def readBy (view : Value → Except Fault (Outcome Value Value)) (p : Value) :
    Parser Value Store Value := fun x => do
  Eff.ofExcept (view (← apply p x))

def read (p : Value) : Parser Value Store Value := readBy apply (Value.outcome "value") p

def readRest (p : Value) : Parser Value Store Value :=
  readBy apply (Value.outcome "remaining") p

def readParts (p : Value) : Parser Value Store Value := readBy apply Value.outcomeByParts p

def readWith (operation : String) : Value → Parser Value Store Value
  | .parser m g => read apply (.parser m g)
  | v => fun _ => Eff.raise (.lacks v.kind operation)

def firstOf : List Value → Value → Run Value
  | [], _ => pure .failure
  | [p], x => apply p x
  | p :: ps, x => do
    let r ← apply p x
    if r.truth then pure r else firstOf ps x

def separator (p : Value) : Value → Parser Value Store Value
  | .parser m sep => read apply (.parser m sep)
  | v => (read apply p).bind fun _ _ => Eff.raise (.lacks v.kind "map")

def give (p : Parser Value Store Value) (x : Value) : Run Value := return .ofOutcome (← p x)

/-- What a parser gives for a value. Operands are applied by `apply` and functions called by
`call`; repetitions, chains and blocks run with the given limit. -/
def Grammar.applyWith (call : Caller) (limit : Nat) : Grammar → Value → Run Value
  | leaf l => give (l.parser limit)
  | ret v => give (Parser.ret v)
  | char c => give (charEqual c)
  | string word => give (Script.string word)
  | oneOf members => give (Script.oneOf members)
  | noneOf members => give (Script.noneOf members)
  | sat test => give (item.filterM fun v => do return (← call test [v] []).truth)
  | trace label => give (Script.trace label)
  | bind p f => fun x => do
    match ← read apply p x with
    | .failure => pure .failure
    | .success v rest => apply (← call f [v] []) rest
  | map p f => give ((read apply p).mapM fun v => call f [v] [])
  | choice ps => firstOf apply ps
  | option default p => fun x => do
    let r ← apply p x
    if r.truth then pure r else pure (.success default x)
  | pair a b =>
    give ((Parser.pair (readRest apply a) (read apply b)).map fun (v, w) => .tuple [v, w])
  | keepRight a b => fun x => do
    match ← read apply a x with
    | .failure => pure .failure
    | .success _ rest => apply b rest
  | keepLeft a b => give (Parser.keepLeft (read apply a) (readWith apply "map" b))
  | repeated least collect p =>
    give ((Parser.repeated limit least (read apply p)).mapM collect.apply)
  | sequenceText ps => give ((Parser.sequence (ps.map (read apply))).mapM joinTexts)
  | count n p => give ((Parser.count n (read apply p)).map .list)
  | between opening closing p =>
    give (Parser.between (read apply opening) (readWith apply "bind" closing)
      (readWith apply "bind" p))
  | optional p => give ((Parser.optional (read apply p)).map fun _ => .none)
  | sepBy p sep =>
    give ((Parser.sepByWithin limit (read apply p) (separator apply p sep)).map .list)
  | sepBy1 p sep =>
    give ((Parser.sepBy1Within limit (read apply p) (separator apply p sep)).map .list)
  | chainl1 p op =>
    give ((readParts apply p).bind (Parser.chainAfter limit (read apply p)
      ((readRest apply op).map fun f v w => call f [v, w] [])))
  | shared id => fun x => do apply (← force (evalWith call) id) x
  | block env body => give (runBlock (evalWith call) (readParts apply) limit env body)
  | raising fault => fun _ => Eff.raise fault

end

def applyBy (call : Caller) : Applier := fun p x => call p [x] []

/- The one argument of a parser. The complaint about names comes before the one about
numbers. -/
def soleArgument (args : List Value) : List (String × Value) → Except Fault Value
  | [] =>
    match args with
    | [v] => .ok v
    | args => .error (.argumentCount args.length)
  | (x, v) :: named =>
    if x == "text" then
      match args with
      | [] => soleArgument [v] named
      | _ => .error (.repeatedArgument x)
    else if x == "self" then .error (.repeatedArgument x)
    else .error (.unexpectedArgument x)

/- A value called when the calls in its body are made by `call`. Calling a block gives the
parser that runs it, also if a parameter has no value. -/
def callWith (call : Caller) (limit : Nat) : Caller
  | .builtin b, args, _ => b.run args
  | .lambda _ params body env, args, named =>
    match Env.bindAll env named params args with
    | .ok env => evalWith call env body
    | .error x => Eff.raise (.missingArgument x)
  | .blockFn _ params body env, args, named =>
    match Env.bindAll env named params args with
    | .ok env => Run.make (.parser (.block env body))
    | .error x => Run.make (.parser (.raising (.missingArgument x)))
  | .parser _ g, args, named => do
    g.applyWith (applyBy call) call limit (← Eff.ofExcept (soleArgument args named))
  | v, _, _ => Eff.raise (.notCallable v.kind)

def call : (limit : Nat) → Caller
  | 0 => fun _ _ _ => Eff.exhausted
  | limit + 1 => callWith (call limit) limit

def eval (limit : Nat) : Env → Expr → Run Value := evalWith (call limit)

def apply (limit : Nat) : Applier := applyBy (call limit)

end ParseKit.Script
