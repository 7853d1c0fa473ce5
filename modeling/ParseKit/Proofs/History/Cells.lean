import Mathlib.Data.Set.Basic
import ParseKit.Script.Session

/-! Which cells occur in values. Data is over a set of cells if the shared parsers in it, at
whatever depth, all have their cells there. Nothing that values are made from each other by gives
a cell that was in none of them; only what evaluates an expression shares a new one. -/
namespace ParseKit.Script

class Cellular (α : Type) where
  Over : Set Name → α → Prop
  grow : ∀ {small large : Set Name} {a : α}, small ⊆ large → Over small a → Over large a

export Cellular (Over)

abbrev Cellular.plain (α : Type) : Cellular α := ⟨fun _ _ => True, fun _ _ => trivial⟩

instance : Cellular Unit := .plain _
instance : Cellular Bool := .plain _
instance : Cellular Char := .plain _
instance : Cellular String := .plain _
instance : Cellular Name := .plain _
instance : Cellular Fault := .plain _
instance : Cellular Binary64 := .plain _

section
variable {α β ε σ : Type} [Cellular α] [Cellular β] [Cellular σ]

instance : Cellular (List α) where
  Over cells as := ∀ a ∈ as, Over cells a
  grow sub based a mem := Cellular.grow sub (based a mem)

instance : Cellular (α × β) where
  Over cells p := Over cells p.1 ∧ Over cells p.2
  grow sub based := ⟨Cellular.grow sub based.1, Cellular.grow sub based.2⟩

instance : Cellular (Option α) where
  Over cells o := ∀ a, o = some a → Over cells a
  grow sub based a same := Cellular.grow sub (based a same)

instance : Cellular (Except ε α) where
  Over cells r := ∀ a, r = .ok a → Over cells a
  grow sub based a same := Cellular.grow sub (based a same)

instance : Cellular (Outcome σ α) where
  Over cells o := ∀ a rest, o = .success a rest → Over cells a ∧ Over cells rest
  grow sub based a rest same :=
    ⟨Cellular.grow sub (based a rest same).1, Cellular.grow sub (based a rest same).2⟩

end

theorem boundSmaller {env : Env} {b : String × Value} (bound : b ∈ env) :
    sizeOf b.2 < sizeOf env := by
  have entry := List.sizeOf_lt_of_mem bound
  have parts : sizeOf b = 1 + sizeOf b.1 + sizeOf b.2 := rfl
  omega

mutual

def Value.Inside (cells : Set Name) : Value → Prop
  | .none | .bool _ | .int _ | .float _ | .str _ | .builtin _ | .failure => True
  | .list vs | .tuple vs => ∀ v ∈ vs, v.Inside cells
  | .lambda _ _ _ env | .blockFn _ _ _ env => ∀ b ∈ env, b.2.Inside cells
  | .parser _ g => g.Inside cells
  | .success v rest => v.Inside cells ∧ rest.Inside cells
termination_by v => sizeOf v
decreasing_by
  all_goals first
    | decreasing_tactic
    | (have smaller := boundSmaller ‹_›
       simp only [Value.lambda.sizeOf_spec, Value.blockFn.sizeOf_spec]
       omega)

def Grammar.Inside (cells : Set Name) : Grammar → Prop
  | .leaf _ | .trace _ | .raising _ => True
  | .ret v | .char v | .string v | .sat v | .repeated _ _ v | .count _ v | .optional v =>
    v.Inside cells
  | .oneOf vs | .noneOf vs | .choice vs | .sequenceText vs => ∀ v ∈ vs, v.Inside cells
  | .bind v w | .map v w | .option v w | .pair v w | .keepRight v w | .keepLeft v w
  | .sepBy v w | .sepBy1 v w | .chainl1 v w => v.Inside cells ∧ w.Inside cells
  | .between v w u => v.Inside cells ∧ w.Inside cells ∧ u.Inside cells
  | .shared id => id ∈ cells
  | .block env _ => ∀ b ∈ env, b.2.Inside cells
termination_by g => sizeOf g
decreasing_by
  all_goals first
    | decreasing_tactic
    | (have smaller := boundSmaller ‹_›
       simp only [Grammar.block.sizeOf_spec]
       omega)

end

theorem overGrows {small large : Set Name} (sub : small ⊆ large) :
    (∀ v : Value, v.Inside small → v.Inside large) ∧
      ∀ g : Grammar, g.Inside small → g.Inside large := by
  apply Value.Inside.mutual_induct (fun v => v.Inside small → v.Inside large)
    (fun g => g.Inside small → g.Inside large)
  all_goals grind [Value.Inside, Grammar.Inside]

instance : Cellular Value := ⟨Value.Inside, fun sub => (overGrows sub).1 _⟩
instance : Cellular Grammar := ⟨Grammar.Inside, fun sub => (overGrows sub).2 _⟩

instance : Cellular Made where
  Over cells
    | .parser g => Over cells g
    | .value v => Over cells v
  grow {_ _ m} sub based := by
    cases m with
    | parser g => exact Cellular.grow (a := g) sub based
    | value v => exact Cellular.grow (a := v) sub based

variable {cells : Set Name}

attribute [simp] Value.Inside Grammar.Inside

@[simp] theorem overValue {v : Value} : Over cells v ↔ v.Inside cells := .rfl

@[simp] theorem overGrammar {g : Grammar} : Over cells g ↔ g.Inside cells := .rfl

@[simp] theorem overMade {g : Grammar} : Over cells (Made.parser g) ↔ g.Inside cells := .rfl

@[simp] theorem overMadeValue {v : Value} : Over cells (Made.value v) ↔ v.Inside cells := .rfl

@[simp] theorem overUnit {u : Unit} : Over cells u := trivial

@[simp] theorem overString {x : String} : Over cells x := trivial

@[simp] theorem overChar {c : Char} : Over cells c := trivial

theorem overText {text : Text} : Over cells text := fun _ _ => trivial

section
variable {α β ε σ : Type} [Cellular α] [Cellular β] [Cellular σ]

@[simp] theorem overList {as : List α} : Over cells as ↔ ∀ a ∈ as, Over cells a := .rfl

theorem overCons {a : α} {as : List α} (first : Over cells a) (others : Over cells as) :
    Over cells (a :: as) := List.forall_mem_cons.mpr ⟨first, others⟩

@[simp] theorem overPair {p : α × β} : Over cells p ↔ Over cells p.1 ∧ Over cells p.2 := .rfl

@[simp] theorem overSome {a : α} : Over cells (some a) ↔ Over cells a := by simp [Over]

@[simp] theorem overNone : Over cells (none : Option α) := by simp [Over]

@[simp] theorem overOk {a : α} : Over cells (.ok a : Except ε α) ↔ Over cells a := by simp [Over]

@[simp] theorem overError {e : ε} : Over cells (.error e : Except ε α) := by simp [Over]

@[simp] theorem overSuccess {a : α} {rest : σ} :
    Over cells (Outcome.success a rest) ↔ Over cells a ∧ Over cells rest := by simp [Over]

@[simp] theorem overFailure : Over cells (Outcome.failure : Outcome σ α) := by simp [Over]

end

namespace Env

theorem findOver {env : Env} (based : Over cells env) (x : String) : Over cells (env.find? x) := by
  induction env with
  | nil => simp [find?]
  | cons b env ih =>
    obtain ⟨here, others⟩ := List.forall_mem_cons.mp based
    simp only [find?]
    split
    · simpa using here
    · exact ih others

theorem setOver {env : Env} (based : Over cells env) (x : String) {v : Value}
    (value : Over cells v) : Over cells (env.set x v) := by
  induction env with
  | nil => simpa [set] using value
  | cons b env ih =>
    obtain ⟨here, others⟩ := List.forall_mem_cons.mp based
    simp only [set]
    split
    · exact overCons ⟨trivial, value⟩ others
    · exact overCons here (ih others)

theorem bindAllOver {env named : Env} (based : Over cells env) (given : Over cells named)
    (params : List String) {args : List Value} (arguments : Over cells args) :
    Over cells (env.bindAll named params args) := by
  induction params generalizing env args with
  | nil => simpa [bindAll] using based
  | cons x params ih =>
    cases args with
    | cons v args =>
      simp only [overList, List.forall_mem_cons] at arguments
      exact ih (setOver based x arguments.1) arguments.2
    | nil =>
      have found := findOver given x
      simp only [bindAll]
      cases same : find? named x with
      | none => simp
      | some v => exact ih (setOver based x (found v same)) arguments

end Env

section
variable {α β ε : Type} [Cellular α] [Cellular β]

theorem overBind {r : Except ε α} {f : α → Except ε β} (head : Over cells r)
    (tail : ∀ a, Over cells a → Over cells (f a)) : Over cells (r >>= f) := by
  cases r with
  | ok a => exact tail a (overOk.mp head)
  | error e => exact overError

theorem overMap {r : Except ε α} {f : α → β} (head : Over cells r)
    (tail : ∀ a, Over cells a → Over cells (f a)) : Over cells (r.map f) := by
  cases r with
  | ok a => exact overOk.mpr (tail a (overOk.mp head))
  | error e => exact overError

end

namespace Value

theorem elementsOver {v : Value} (based : Over cells v) : Over cells v.elements := by
  cases v <;> simp_all [elements]

theorem partsOver {v : Value} (based : Over cells v) : Over cells v.parts := by
  have inside := elementsOver based
  unfold parts
  split <;> simp_all

theorem outcomeOver {v : Value} (based : Over cells v) (part : String) :
    Over cells (v.outcome part) := by
  unfold outcome
  repeat' split
  all_goals simp_all

theorem outcomeByPartsOver {v : Value} (based : Over cells v) :
    Over cells v.outcomeByParts := by
  unfold outcomeByParts
  split
  · exact overMap (partsOver based) fun _ inside => overSuccess.mpr inside
  · simp

theorem ofOutcomeOver {o : Outcome Value Value} (based : Over cells o) :
    Over cells (ofOutcome o) := by
  cases o <;> simp_all [ofOutcome]

theorem hashedOver {v : Value} (based : Over cells v) : Over cells v.hashed := by
  unfold hashed
  split <;> simp_all

theorem hashedAllOver {vs : List Value} (based : Over cells vs) :
    Over cells (vs.mapM hashed) := by
  induction vs with
  | nil => simp [pure, Except.pure]
  | cons v vs ih =>
    obtain ⟨first, others⟩ := List.forall_mem_cons.mp based
    rw [List.mapM_cons]
    refine overBind (hashedOver first) fun v inside => overBind (ih others) fun vs more => ?_
    exact overOk.mpr (overCons inside more)

theorem membersOver {v : Value} (based : Over cells v) : Over cells v.members :=
  overBind (elementsOver based) fun _ inside => hashedAllOver inside

theorem alternativesOver {v : Value} (based : Over cells v) : Over cells v.alternatives := by
  have inside := elementsOver based
  unfold alternatives
  repeat' split
  all_goals simp_all

theorem builtOver (operand : Value) (operation : String) {g : Grammar} (based : Over cells g) :
    Over cells (operand.built operation g) := by
  unfold built
  split <;> simp_all

end Value

theorem Atom.valueOver (a : Atom) : Over cells a.value := by
  cases a <;> simp [value]

namespace Bitwise

theorem calculateOver (op : Bitwise) (v w : Value) : Over cells (op.calculate v w) := by
  unfold calculate
  repeat' split
  · simp
  · simp
  · cases op.onIntegers _ _ <;> simp [Except.map]
  · simp

theorem combineOver (op : Bitwise) {v w : Value} (left : Over cells v) (right : Over cells w) :
    Over cells (op.combine v w) := by
  unfold combine
  split
  · simp_all
  · simp_all
  · simp_all
  · simp_all
  · exact overMap (calculateOver op _ _) fun _ inside => inside

end Bitwise

namespace Comparison

theorem ofLeftOver (op : Comparison) {v w : Value} (left : Over cells v)
    (right : Over cells w) : Over cells (op.ofLeft v w) := by
  cases op <;> simp_all [ofLeft]

theorem combinesOver (op : Comparison) :
    (∀ v w : Value, Over cells v → Over cells w → Over cells (op.combine v w)) ∧
      ∀ vs ws : List Value, Over cells vs → Over cells ws → Over cells (op.combineAll vs ws) := by
  refine combine.mutual_induct
    (fun v w => Over cells v → Over cells w → Over cells (op.combine v w))
    (fun vs ws => Over cells vs → Over cells ws → Over cells (op.combineAll vs ws))
    ?parser ?turned ?texts ?lists ?tuples ?numbers ?others ?equals ?differs ?ended
  case parser => exact fun m g b left right => overOk.mpr (ofLeftOver op left right)
  case turned =>
    intro a m g _ left right
    rw [combine]
    · exact overOk.mpr (ofLeftOver op.turned right left)
    · assumption
  case texts => intros; simp [combine]
  case lists | tuples =>
    intro vs ws ih left right
    simpa only [combine] using ih (by simpa using left) (by simpa using right)
  case numbers => intros; simp_all [combine]
  case others =>
    intro v w _ _ _ _ _ other _ _
    rw [combine, if_neg other]
    · exact overError
    all_goals assumption
  case equals =>
    intro v vs w ws same ih left right
    simp only [combineAll, same, if_true]
    exact ih (List.forall_mem_cons.mp left).2 (List.forall_mem_cons.mp right).2
  case differs =>
    intro v vs w ws other ih left right
    simp only [combineAll, other]
    exact ih (List.forall_mem_cons.mp left).1 (List.forall_mem_cons.mp right).1
  case ended =>
    intro vs ws ended _ _
    rw [combineAll]
    · simp
    · assumption

end Comparison

theorem foldOver {f : Value → Value → Except Fault Value} (each : ∀ v w, Over cells (f v w))
    {v : Value} (first : Over cells v) (vs : List Value) : Over cells (vs.foldlM f v) := by
  induction vs generalizing v with
  | nil => exact overOk.mpr first
  | cons w vs ih => exact overBind (each v w) fun _ inside => ih inside

theorem choiceOver {vs : List Value} (based : Over cells vs) : Over cells (buildChoice vs) := by
  unfold buildChoice
  split
  · exact overOk.mpr Atom.fail.valueOver
  · simp_all
  · simp_all
  · have first := based _ (List.mem_cons_self ..)
    exact overMap (foldOver (Bitwise.calculateOver _) first _) fun _ inside => inside

theorem optionOver {default operand : Value} (left : Over cells default)
    (right : Over cells operand) : Over cells (buildOption default operand) := by
  unfold buildOption
  split <;> simp_all

theorem Unary.buildOver (op : Unary) {v : Value} (based : Over cells v) :
    Over cells (op.build v) := by
  cases op with
  | oneOf | noneOf =>
    exact overBind (Value.membersOver based) fun vs inside => overOk.mpr (by simpa using inside)
  | sequenceText =>
    exact overBind (Value.elementsOver based) fun vs inside => overOk.mpr (by simpa using inside)
  | choice => exact overBind (Value.alternativesOver based) fun _ inside => choiceOver inside
  | optionMaybe => exact optionOver (by simp) based
  | optional => exact Value.builtOver v "bind" (by simpa using based)
  | trace => exact overOk.mpr (by simp)
  | _ => simpa [Unary.build] using based

theorem countOver (amount : Value) {operand : Value} (based : Over cells operand) :
    Over cells (buildCount amount operand) := by
  unfold buildCount
  repeat' split
  all_goals simp_all

theorem Binary.buildOver (op : Binary) {v w : Value} (left : Over cells v)
    (right : Over cells w) : Over cells (op.build v w) := by
  have both : v.Inside cells ∧ w.Inside cells := ⟨left, right⟩
  cases op with
  | bind => exact v.builtOver "bind" (by simpa using both)
  | map => exact v.builtOver "map" (by simpa using both)
  | sepBy => exact v.builtOver "bind" (by simpa using both)
  | sepBy1 => exact v.builtOver "bind" (by simpa using both)
  | andThen | alt | pair => exact Bitwise.combineOver _ left right
  | keepRight | keepLeft => exact (Comparison.combinesOver _).1 v w left right
  | count => exact countOver v right
  | option => exact optionOver left right
  | chainl1 => simpa [Binary.build] using both

theorem betweenOver {opening closing inner : Value} (left : Over cells opening)
    (right : Over cells closing) (middle : Over cells inner) :
    Over cells (buildBetween opening closing inner) :=
  opening.builtOver "bind" (by simpa using ⟨left, right, middle⟩)

namespace Builtin

theorem computeOver (b : Builtin) {args : List Value} (based : Over cells args) :
    Over cells (b.compute args) := by
  fun_cases compute b args
  case case2 s => cases readInt? s <;> simp
  all_goals simp_all [or_imp, forall_and]

end Builtin
end ParseKit.Script
