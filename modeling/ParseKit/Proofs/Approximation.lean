import ParseKit.Parser.Number
import ParseKit.Parser.Separated
import ParseKit.Proofs.Results

/-! Evaluations compared by their answers: `x` is below `y` where `y` answers as `x` does
whenever `x` is not cut short. Every combinator keeps this order in its operands and in its
limit, so that a larger limit never changes an answer that is there. -/
namespace ParseKit
namespace Eff
variable {ω α β : Type}

def Below (x y : Eff ω α) : Prop := ∀ w, x w = y w ∨ (x w).1 = .exhausted

namespace Below

theorem refl (x : Eff ω α) : Below x x := fun _ => .inl rfl

theorem exhausted (x : Eff ω α) : Below Eff.exhausted x := fun _ => .inr rfl

theorem trans {x y z : Eff ω α} (first : Below x y) (second : Below y z) : Below x z := by
  intro w
  rcases first w with same | short
  · rw [same]; exact second w
  · exact .inr short

theorem bind {x y : Eff ω α} {f g : α → Eff ω β} (head : Below x y)
    (tail : ∀ a, Below (f a) (g a)) : Below (x >>= f) (y >>= g) := by
  intro w
  change Eff.bind x f w = Eff.bind y g w ∨ (Eff.bind x f w).1 = .exhausted
  unfold Eff.bind
  rcases head w with same | short
  · rw [same]
    rcases y w with ⟨a | e | _, v⟩
    · exact tail a v
    · exact .inl rfl
    · exact .inl rfl
  · rcases ended : x w with ⟨a | e | _, v⟩ <;> simp [ended] at short ⊢

theorem given {x : Eff ω α} {f g : α → Eff ω β} {post : α → Prop} (head : x.Gives post)
    (tail : ∀ a, post a → Below (f a) (g a)) : Below (x >>= f) (x >>= g) := by
  intro w
  change Eff.bind x f w = Eff.bind x g w ∨ (Eff.bind x f w).1 = .exhausted
  unfold Eff.bind
  rcases run : x w with ⟨a | e | _, v⟩
  · exact tail a (head w a v run) v
  · exact .inl rfl
  · exact .inl rfl

theorem attempt {x y : Eff ω α} (below : Below x y) : Below x.attempt y.attempt := by
  intro w
  unfold Eff.attempt
  rcases below w with same | short
  · rw [same]; exact .inl rfl
  · rcases ended : x w with ⟨a | e | _, v⟩ <;> simp [ended] at short ⊢

theorem ends {x y : Eff ω α} (below : Below x y) {w w' : ω} {exit : Exit α}
    (run : x w = (exit, w')) (ended : exit ≠ .exhausted) : y w = (exit, w') := by
  rcases below w with same | short
  · exact same.symm.trans run
  · rw [run] at short; exact absurd short ended

end Below
end Eff

namespace Parser
variable {σ ω α β γ : Type}

theorem mapBind (p : Parser σ ω α) (f : α → β) (input : σ) (next : Outcome σ β → Eff ω γ) :
    (p.map f) input >>= next = p input >>= fun
      | .failure => next .failure
      | .success v rest => next (.success (f v) rest) :=
  (Eff.bindAssoc (p input) _ next).trans <| bind_congr fun o => by cases o <;> rfl

def Below (p q : Parser σ ω α) : Prop := ∀ input, Eff.Below (p input) (q input)

namespace Below
open Eff.Below (exhausted)

theorem refl (p : Parser σ ω α) : Below p p := fun input => .refl (p input)

theorem bind {p q : Parser σ ω α} {f g : α → Parser σ ω β} (head : Below p q)
    (tail : ∀ v, Below (f v) (g v)) : Below (p.bind f) (q.bind g) := fun input =>
  (head input).bind fun
    | .failure => .refl _
    | .success v rest => tail v rest

theorem alt {a b c d : Parser σ ω α} (left : Below a c) (right : Below b d) :
    Below (a.alt b) (c.alt d) := fun input =>
  (left input).bind fun
    | .failure => right input
    | .success _ _ => .refl _

theorem mapM {p q : Parser σ ω α} {f g : α → Eff ω β} (head : Below p q)
    (tail : ∀ v, Eff.Below (f v) (g v)) : Below (p.mapM f) (q.mapM g) := fun input =>
  (head input).bind fun
    | .failure => .refl _
    | .success v _ => (tail v).bind fun _ => .refl _

theorem map {p q : Parser σ ω α} (head : Below p q) (f : α → β) : Below (p.map f) (q.map f) :=
  head.mapM fun _ => .refl _

theorem filterM {p q : Parser σ ω α} {f g : α → Eff ω Bool} (head : Below p q)
    (tail : ∀ v, Eff.Below (f v) (g v)) : Below (p.filterM f) (q.filterM g) :=
  head.bind fun v _ => (tail v).bind fun _ => .refl _

theorem pair {a c : Parser σ ω α} {b d : Parser σ ω β} (left : Below a c) (right : Below b d) :
    Below (a.pair b) (c.pair d) := fun input =>
  (left input).bind fun
    | .failure => .refl _
    | .success _ rest => (right rest).bind fun _ => .refl _

theorem keepRight {a c : Parser σ ω α} {b d : Parser σ ω β} (left : Below a c)
    (right : Below b d) : Below (a.keepRight b) (c.keepRight d) :=
  left.bind fun _ => right

theorem keepLeft {a c : Parser σ ω α} {b d : Parser σ ω β} (left : Below a c)
    (right : Below b d) : Below (a.keepLeft b) (c.keepLeft d) :=
  left.bind fun x => right.map fun _ => x

theorem between {a d : Parser σ ω α} {b e : Parser σ ω β} {p q : Parser σ ω γ}
    (opening : Below a d) (closing : Below b e) (inner : Below p q) :
    Below (Parser.between a b p) (Parser.between d e q) :=
  opening.bind fun _ => inner.bind fun _ => closing.bind fun _ => .refl _

theorem optional {p q : Parser σ ω α} (head : Below p q) :
    Below (Parser.optional p) (Parser.optional q) :=
  (head.bind fun _ => .refl _).alt (.refl _)

theorem numeralOf {minus point digits digits' digits1 digits1' : Parser σ ω Text}
    (whole : Below digits digits') (fraction : Below digits1 digits1') :
    Below (Parser.numeralOf minus point digits digits1)
      (Parser.numeralOf minus point digits' digits1') := by
  simp only [Parser.numeralOfBind]
  have behind := (refl point).bind fun dot => fraction.bind fun more => refl (ret (dot ++ more))
  exact (refl _).bind fun _ => whole.bind fun _ => (behind.alt (refl _)).bind fun _ => refl _

theorem sequenceFrom {ι : Type} {f g : ι → Parser σ ω α} (each : ∀ i, Below (f i) (g i))
    (seen : List α) (items : List ι) :
    Below (Parser.sequenceFrom seen (items.map f)) (Parser.sequenceFrom seen (items.map g)) := by
  induction items generalizing seen with
  | nil => exact .refl _
  | cons i items ih => exact (each i).bind fun v => ih (v :: seen)

theorem sequence {ι : Type} {f g : ι → Parser σ ω α} (each : ∀ i, Below (f i) (g i))
    (items : List ι) : Below (Parser.sequence (items.map f)) (Parser.sequence (items.map g)) :=
  sequenceFrom each [] items

theorem countFrom {p q : Parser σ ω α} (head : Below p q) (seen : List α) (n : Nat) :
    Below (Parser.countFrom p seen n) (Parser.countFrom q seen n) := by
  induction n generalizing seen with
  | zero => exact .refl _
  | succ n ih => exact head.bind fun v => ih (v :: seen)

theorem count {p q : Parser σ ω α} (head : Below p q) (n : Int) :
    Below (Parser.count n p) (Parser.count n q) := countFrom head [] n.toNat

theorem repeatFrom {p q : Parser σ ω α} (head : Below p q) {m n : Nat} (le : m ≤ n)
    (seen : List α) (input : σ) :
    Eff.Below (Parser.repeatFrom p m seen input) (Parser.repeatFrom q n seen input) := by
  induction m generalizing n seen input with
  | zero =>
    unfold Parser.repeatFrom
    exact (head input).bind fun
      | .failure => .refl _
      | .success _ _ => exhausted _
  | succ m ih =>
    cases n with
    | zero => omega
    | succ n =>
      have le : m ≤ n := by omega
      unfold Parser.repeatFrom
      exact (head input).bind fun
        | .failure => .refl _
        | .success v rest => ih le (v :: seen) rest

theorem repeated {p q : Parser σ ω α} (head : Below p q) {m n : Nat} (le : m ≤ n)
    (least : Nat) : Below (Parser.repeated m least p) (Parser.repeated n least q) := fun input =>
  (repeatFrom head le [] input).bind fun _ => .refl _

theorem sepBy1Within {p q : Parser σ ω α} {sep sep' : Parser σ ω β} (operand : Below p q)
    (separator : Below sep sep') {m n : Nat} (le : m ≤ n) :
    Below (Parser.sepBy1Within m p sep) (Parser.sepBy1Within n q sep') :=
  operand.bind fun _ => (repeated (separator.keepRight operand) le 0).bind fun _ => .refl _

theorem sepByWithin {p q : Parser σ ω α} {sep sep' : Parser σ ω β} (operand : Below p q)
    (separator : Below sep sep') {m n : Nat} (le : m ≤ n) :
    Below (Parser.sepByWithin m p sep) (Parser.sepByWithin n q sep') :=
  (sepBy1Within operand separator le).alt (.refl _)

theorem chainFrom {ι : Type} {p q : Parser σ ω α} {op op' : Parser σ ω ι}
    {f g : ι → α → α → Eff ω α} (operand : Below p q) (operator : Below op op')
    (combine : ∀ i x y, Eff.Below (f i x y) (g i x y)) {m n : Nat} (le : m ≤ n)
    (value : α) (input : σ) :
    Eff.Below (Parser.chainFrom p (op.map f) m value input)
      (Parser.chainFrom q (op'.map g) n value input) := by
  induction m generalizing n value input with
  | zero =>
    unfold Parser.chainFrom
    rw [mapBind, mapBind]
    exact (operator input).bind fun
      | .failure => .refl _
      | .success i rest => (operand rest).bind fun
        | .failure => .refl _
        | .success right _ => (combine i value right).bind fun _ => exhausted _
  | succ m ih =>
    cases n with
    | zero => omega
    | succ n =>
      have le : m ≤ n := by omega
      unfold Parser.chainFrom
      rw [mapBind, mapBind]
      exact (operator input).bind fun
        | .failure => .refl _
        | .success i rest => (operand rest).bind fun
          | .failure => .refl _
          | .success right rest => (combine i value right).bind fun value => ih le value rest

theorem chainAfter {ι : Type} {p q : Parser σ ω α} {op op' : Parser σ ω ι}
    {f g : ι → α → α → Eff ω α} (operand : Below p q) (operator : Below op op')
    (combine : ∀ i x y, Eff.Below (f i x y) (g i x y)) {m n : Nat} (le : m ≤ n) (first : α) :
    Below (Parser.chainAfter m p (op.map f) first) (Parser.chainAfter n q (op'.map g) first) :=
  fun input => (chainFrom operand operator combine le first input).bind fun _ => .refl _

end Below
end Parser
end ParseKit
