import ParseKit.Proofs.Block.Chain
import ParseKit.Proofs.Suffix

/-! Applications that are watched. Whoever watches sees each callback and each application of a
parser as it begins, and may change the store then. The run may also be stopped where one of them
raises a fault first: it does nothing from there on. Where an operand is no parser, or a block has
protected parts, the run is cut short. -/
namespace ParseKit.Script

/- What is seen of an application. The statements of a block run until it yields or returns. -/
inductive Happening where
  | applied (p x : Value)
  | called (f : Value) (args : List Value)
  | thunk (cell : Name)
  | resumed (env : Env) (stack : List Frame)

/- The faults that parsers raise by themselves: a value that cannot be called is applied or yielded,
or what is to be joined is no text. -/
def isOwn : Fault → Bool
  | .notCallable _ | .notText .. | .notParser _ => true
  | _ => false

def Happening.Raises : Happening → Fault → Prop
  | .applied .., fault => isOwn fault = true
  | _, _ => True

def Happening.passed : Happening → Fault → Fault
  | .resumed .., fault => fault.leaving
  | _, fault => fault

def stopAt {α : Type} (stop : Happening → Fault → Store → Store) (h : Happening) :
    Except Fault α → Run α
  | .ok a => pure a
  | .error fault => do
    Eff.modify (stop h fault)
    Eff.exhausted

structure Observer where
  sees : Happening → Store → Store
  stops : Option (Happening → Fault → Store → Store)

namespace Observer

def silent : Observer := ⟨fun _ => id, none⟩

variable (o : Observer)

def watch {α : Type} (h : Happening) (x : Run α) : Run α := do
  Eff.modify (o.sees h)
  match o.stops with
  | none => x
  | some stop => stopAt stop h (← x.attempt)

def calling (call : Caller) : Caller := fun f args named =>
  o.watch (.called f args) (call f args named)

def forcing (call : Caller) (id : Name) : Run Value := do
  match (← Run.cell? id).bind Cell.built with
  | some p => pure p
  | none => o.watch (.thunk id) (force (evalWith call) id)

variable (apply : Applier) (call : Caller)

def drive : (limit : Nat) → Env → List Frame → Parser Value Store Value
  | 0, _, _, _ => Eff.exhausted
  | limit + 1, env, stack, x => do
    let pause ← fromGenerator
      (o.watch (.resumed env stack) (advance (evalWith call) limit env stack))
    resume (evalWith call) (readParts apply) (drive limit) x pause

end Observer

def Value.isParser : Value → Bool
  | .parser .. => true
  | _ => false

theorem Value.parserOf {v : Value} (parser : v.isParser = true) : ∃ m g, v = .parser m g := by
  cases v <;> cases parser
  exact ⟨_, _, rfl⟩

def Value.isText : Value → Bool
  | .str _ => true
  | _ => false

def Grammar.sound : Grammar → Bool
  | .leaf _ | .ret _ | .char _ | .oneOf _ | .noneOf _ | .sat _ | .trace _ | .shared _ => true
  | .string word => word.isText
  | .bind p _ | .map p _ | .option _ p | .repeated _ _ p | .count _ p | .optional p => p.isParser
  | .choice ps | .sequenceText ps => ps.all Value.isParser
  | .pair p q | .keepRight p q | .keepLeft p q | .sepBy p q | .sepBy1 p q | .chainl1 p q =>
    p.isParser && q.isParser
  | .between p q r => p.isParser && q.isParser && r.isParser
  | .block _ body => allUnprotected body
  | .raising (.missingArgument _) => true
  | .raising _ => false

def Grammar.applyWatched (o : Observer) (apply : Applier) (call : Caller) (limit : Nat) :
    Grammar → Value → Run Value
  | .shared id => fun x => do apply (← o.forcing call id) x
  | .block env body => give (o.drive apply call limit env [.statements body])
  | .raising fault => fun _ => o.watch (.resumed [] []) (Eff.raise fault)
  | g => g.applyWith apply (o.calling call) limit

def applyWatched (o : Observer) : (limit : Nat) → Applier
  | 0, _, _ => Eff.exhausted
  | limit + 1, p, x => o.watch (.applied p x) <|
    match p with
    | .parser _ g =>
      if g.sound then g.applyWatched o (applyWatched o limit) (call limit) limit x
      else Eff.exhausted
    | v => if v.isCallable then Eff.exhausted else Eff.raise (.notCallable v.kind)

/-- Wherever the run applies a value as a parser, it is one with sound operands or cannot be called
at all. -/
def OnlySound (limit : Nat) (p x : Value) (w : Store) : Prop :=
  applyWatched .silent limit p x w = apply limit p x w

end ParseKit.Script
