import ParseKit.Proofs.Block.Leaving
import ParseKit.Script.Subject

/-! Generators at large: code that is suspended where it yields, whatever it keeps. What drives
them sends each value back and applies what is yielded to what is left. Main statement: a block of
statements is driven as one of them. Other generators assign variables that parsers they have made
still read. -/
namespace ParseKit.Script

inductive Sent (π α ρ : Type) where
  | yielded (step : π) (suspended : ρ)
  | returned (value : α)

structure Generator (ω π α ρ : Type) where
  send : (limit : Nat) → ρ → α → Eff ω (Sent π α ρ)
  close : ρ → Eff ω Unit

def Generator.run {ω π α ρ σ : Type} (g : Generator ω π α ρ)
    (read : π → Except Fault (Parser σ ω α)) : (limit : Nat) → ρ → α → Parser σ ω α
  | 0, _, _, _ => Eff.exhausted
  | limit + 1, suspended, value, rest => do
    match ← fromGenerator (g.send limit suspended value) with
    | .returned v => pure (.success v rest)
    | .yielded step suspended =>
      match read step with
      | .error fault => do
        fromGenerator (g.close suspended)
        Eff.raise fault
      | .ok p =>
        match ← p rest with
        | .failure => do
          fromGenerator (g.close suspended)
          pure .failure
        | .success value rest => g.run read limit suspended value rest

section
variable (eval : Env → Expr → Run Value)

def Pause.sent : Pause → Sent Value Value (Option String × Position)
  | .yielded v into position => .yielded v (into, position)
  | .returned v => .returned v

def statements : Generator Store Value Value (Option String × Position) where
  send limit suspended v := do
    let (into, position) := suspended
    return (← advance eval limit (position.env.receive into v) position.stack).sent
  close suspended := leaveThen eval suspended.2 (pure ())

def operand {σ : Type} (apply : Value → Parser σ Store Value) (v : Value) :
    Except Fault (Parser σ Store Value) :=
  if v.isCallable then .ok (apply v) else .error (.notParser v.display)

theorem closedBefore {α : Type} (position : Position) (next : Run α)
    (same : fromGenerator next = next) :
    fromGenerator (leaveThen eval position next) =
      fromGenerator (leaveThen eval position (pure ())) >>= fun _ => next := by
  rw [leavingThen, leavingThen, Eff.bindAssoc]
  refine bind_congr fun last => ?_
  cases last with
  | none => exact same
  | some fault => rfl

theorem drivenGenerator {σ : Type} (apply : Value → Parser σ Store Value) (limit : Nat)
    (into : Option String) (position : Position) (v : Value) (x : σ) :
    drive eval apply limit (position.env.receive into v) position.stack x =
      (statements eval).run (operand apply) limit (into, position) v x := by
  induction limit generalizing into position v x with
  | zero => rfl
  | succ limit ih =>
    unfold drive Generator.run
    refine Eq.trans ?_ (congrArg (· >>= _) (leavingBind _ _)).symm
    rw [Eff.bindAssoc]
    refine bind_congr fun p => ?_
    cases p with
    | returned v => rfl
    | yielded v into position =>
      simp only [resume, operand, Pause.sent, leavingPure, pure_bind]
      cases v.isCallable with
      | true =>
        simp only [if_true]
        refine bind_congr (x := apply v x) fun o => ?_
        cases o with
        | failure => exact closedBefore eval position (pure Outcome.failure) rfl
        | success value rest => exact ih into position value rest
      | false =>
        simp only [Bool.false_eq_true, if_false]
        exact closedBefore eval position (Eff.raise (.notParser v.display)) rfl

/-- A block is driven as the generator of its statements. -/
theorem blockGenerator {σ : Type} (apply : Value → Parser σ Store Value) (limit : Nat) (env : Env)
    (body : List Stmt) (x : σ) :
    runBlock eval apply limit env body x =
      (statements eval).run (operand apply) limit (none, ⟨env, [.statements body]⟩) Value.none x :=
  drivenGenerator eval apply limit none ⟨env, [.statements body]⟩ Value.none x

end

def rereads : Parser Value Value Value :=
  (Parser.ret Value.none).bind fun _ input => do Parser.ret (← Eff.get) input

/- Assigns a character to the variable, makes a parser that reads it, assigns the next character
and returns what the parser gives. -/
def reassigning : Generator Value (Parser Value Value Value) Value Nat where
  send _ place v :=
    match place with
    | 0 => pure (.yielded item 1)
    | 1 => do
      Eff.modify fun _ => v
      pure (.yielded item 2)
    | 2 => do
      Eff.modify fun _ => v
      pure (.yielded rereads 3)
    | _ => pure (.returned v)
  close _ := pure ()

def rebinding : Parser Value Value Value :=
  item.bind fun first =>
    let parser : Parser Value Value Value := (Parser.ret Value.none).bind fun _ => Parser.ret first
    item.bind fun _ => parser.bind Parser.ret

theorem reassignedIsSeen (c d : Char) (rest : Text) (w : Value) :
    reassigning.run .ok 4 0 Value.none (.str (c :: d :: rest)) w =
        (.done (.success (.str [d]) (.str rest)), .str [d]) ∧
      rebinding (.str (c :: d :: rest)) w = (.done (.success (.str [c]) (.str rest)), w) :=
  ⟨rfl, rfl⟩

end ParseKit.Script
