import ParseKit.Proofs.History.Evaluation

/-! Ways to build what is in cells. Evaluation as it is builds the parser of a cell by evaluating an
expression, in which parsers may be applied. Here the building is a parameter, and may be a plain
one: no parser is applied while a cell is built. It may also be kept quiet, so that what is put down
while cells are built does not stay. -/
namespace ParseKit.Script
open Eff (Below)

def Run.hush {α : Type} (quiet : Bool) (x : Run α) : Run α := fun w =>
  let (exit, after) := x w
  (exit, ⟨after.cells, if quiet then w.events else after.events, after.name⟩)

theorem hushBelow {α : Type} (quiet : Bool) {x y : Run α} (below : Below x y) :
    Below (Run.hush quiet x) (Run.hush quiet y) := by
  intro w
  rcases below w with same | short
  · exact .inl (by simp only [Run.hush, same])
  · exact .inr (by simpa only [Run.hush] using short)

def callForcing (forcing : Nat → Name → Run Value) : Nat → Caller
  | 0 => fun _ _ _ => Eff.exhausted
  | limit + 1 => fun
    | .parser _ (.shared id), args, named => do
      let x ← Eff.ofExcept (soleArgument args named)
      callForcing forcing limit (← forcing limit id) [x] []
    | f, args, named => callWith (callForcing forcing limit) limit f args named

def callFunction : Nat → Caller
  | 0 => fun _ _ _ => Eff.exhausted
  | limit + 1 => fun
    | .parser .., _, _ => Eff.exhausted
    | f, args, named => callWith (callFunction limit) limit f args named

def forcePlainly (quiet : Bool) (limit : Nat) (id : Name) : Run Value :=
  Run.hush quiet (force (evalWith (callFunction limit)) id)

/-- Calls as they are, but for parsers that are applied while a cell is built: these are cut
short. -/
def callPlainly (quiet : Bool) : Nat → Caller := callForcing (forcePlainly quiet)

section
variable {f : Value}

theorem callForcingOther (forcing : Nat → Name → Run Value)
    (other : ∀ mark id, f ≠ .parser mark (.shared id)) (limit : Nat) (args : List Value)
    (named : Env) : callForcing forcing (limit + 1) f args named =
      callWith (callForcing forcing limit) limit f args named := by
  cases f with
  | parser mark g =>
    cases g with
    | shared id => exact absurd rfl (other mark id)
    | _ => rfl
  | _ => rfl

theorem callFunctionOther (other : ∀ mark g, f ≠ .parser mark g) (limit : Nat)
    (args : List Value) (named : Env) :
    callFunction (limit + 1) f args named = callWith (callFunction limit) limit f args named := by
  cases f with
  | parser mark g => exact absurd rfl (other mark g)
  | _ => rfl

end

theorem callIsForcing (limit : Nat) :
    callForcing (fun limit => force (evalWith (call limit))) limit = call limit := by
  induction limit with
  | zero => rfl
  | succ limit ih =>
    funext f args named
    by_cases shared : ∃ mark id, f = .parser mark (.shared id)
    · obtain ⟨mark, id, rfl⟩ := shared
      simp only [callForcing, ih]
      rfl
    · rw [callForcingOther _ (by simpa using shared), ih]
      rfl

section
variable {m n : Nat} (le : m ≤ n)
include le

theorem callFunctionBelow : CallerBelow (callFunction m) (callFunction n) := by
  induction m generalizing n with
  | zero => exact fun _ _ _ => .exhausted _
  | succ m ih =>
    cases n with
    | zero => omega
    | succ n =>
      have less : m ≤ n := by omega
      intro f args named
      by_cases parser : ∃ mark g, f = .parser mark g
      · obtain ⟨mark, g, rfl⟩ := parser
        exact .exhausted _
      · rw [callFunctionOther (by simpa using parser), callFunctionOther (by simpa using parser)]
        exact callWithBelow (ih less) less f args named

theorem functionsAreForcing (forcing : Nat → Name → Run Value) :
    CallerBelow (callFunction m) (callForcing forcing n) := by
  induction m generalizing n with
  | zero => exact fun _ _ _ => .exhausted _
  | succ m ih =>
    cases n with
    | zero => omega
    | succ n =>
      have less : m ≤ n := by omega
      intro f args named
      by_cases parser : ∃ mark g, f = .parser mark g
      · obtain ⟨mark, g, rfl⟩ := parser
        exact .exhausted _
      · have other : ∀ mark g, f ≠ .parser mark g := by simpa using parser
        rw [callFunctionOther other, callForcingOther _ fun mark id => other mark _]
        exact callWithBelow (ih less) less f args named

theorem functionsAreCalls : CallerBelow (callFunction m) (call n) :=
  callIsForcing n ▸ functionsAreForcing le _

end

theorem callForcingBelow {forcing forcing' : Nat → Name → Run Value}
    (forces : ∀ {m n : Nat}, m ≤ n → ∀ id, Below (forcing m id) (forcing' n id)) {m n : Nat}
    (le : m ≤ n) : CallerBelow (callForcing forcing m) (callForcing forcing' n) := by
  induction m generalizing n with
  | zero => exact fun _ _ _ => .exhausted _
  | succ m ih =>
    cases n with
    | zero => omega
    | succ n =>
      have less : m ≤ n := by omega
      intro f args named
      by_cases shared : ∃ mark id, f = .parser mark (.shared id)
      · obtain ⟨mark, id, rfl⟩ := shared
        exact (Below.refl _).bind fun x => (forces less id).bind fun p => ih less p [x] []
      · have other : ∀ mark id, f ≠ .parser mark (.shared id) := by simpa using shared
        rw [callForcingOther _ other, callForcingOther _ other]
        exact callWithBelow (ih less) less f args named

theorem plainBelow (limit : Nat) : CallerBelow (callPlainly false limit) (call limit) := by
  rw [← callIsForcing]
  refine callForcingBelow (fun le id => ?_) (Nat.le_refl limit)
  exact forceBelow (fun env e => evalBelow (functionsAreCalls le) env e) id

section
variable {K : Coupling}

theorem callFunctionCoupled (limit : Nat) :
    Callers K (callFunction (limit + K.ahead)) (callFunction limit) := by
  induction limit with
  | zero =>
    refine fun known f args named _ _ _ => .cut fun level => ?_
    rw [level]
    rfl
  | succ limit ih =>
    intro known f args named function based names
    rw [Nat.add_right_comm]
    by_cases parser : ∃ mark g, f = .parser mark g
    · obtain ⟨mark, g, rfl⟩ := parser
      exact .exhausted
    · have other : ∀ mark g, f ≠ .parser mark g := by simpa using parser
      rw [callFunctionOther other, callFunctionOther other]
      exact callOtherCoupled ih limit other function based names

theorem callForcingCoupled {forcing forcing' : Nat → Name → Run Value} {top : Nat}
    (forces : ∀ limit < top,
      Callers K (callForcing forcing (limit + K.ahead)) (callForcing forcing' limit) →
        ∀ known, ∀ id ∈ known,
          Coupled K known (forcing (limit + K.ahead) id) (forcing' limit id))
    (limit : Nat) (within : limit ≤ top) :
    Callers K (callForcing forcing (limit + K.ahead)) (callForcing forcing' limit) := by
  induction limit with
  | zero =>
    refine fun known f args named _ _ _ => .cut fun level => ?_
    rw [level]
    rfl
  | succ limit ih =>
    have calls := ih (by omega)
    have applies : Appliers K (applyBy (callForcing forcing (limit + K.ahead)))
        (applyBy (callForcing forcing' limit)) := fun known p x parser input =>
      calls known p [x] [] parser (by simpa using input) (by simp)
    intro known f args named function based names
    rw [Nat.add_right_comm]
    by_cases parser : ∃ mark g, f = .parser mark g
    · obtain ⟨mark, g, rfl⟩ := parser
      have argument := Coupled.ofExcept (K := K) (soleArgumentOver based names)
      simp only [overValue, Value.Inside] at function
      by_cases shared : ∃ id, g = .shared id
      · obtain ⟨id, rfl⟩ := shared
        have there : id ∈ known := by simpa using function
        exact argument.bind fun more x sub input =>
          (forces limit (by omega) calls more id (sub there)).bind fun large p later inside =>
            applies large p x inside (Cellular.grow later input)
      · have unshared : ∀ id, g ≠ .shared id := fun id same => shared ⟨id, same⟩
        have other : ∀ other id, Value.parser mark g ≠ .parser other (.shared id) :=
          fun _ id same => unshared id (Value.parser.inj same).2
        rw [callForcingOther _ other, callForcingOther _ other]
        exact argument.bind fun more x sub input =>
          applyWithCoupled applies calls limit unshared (Cellular.grow sub function) input
    · have other : ∀ mark g, f ≠ .parser mark g := fun mark g same => parser ⟨mark, g, same⟩
      have unshared : ∀ mark id, f ≠ .parser mark (.shared id) := fun mark id => other mark _
      rw [callForcingOther _ unshared, callForcingOther _ unshared]
      exact callOtherCoupled calls limit other function based names

end

end ParseKit.Script
