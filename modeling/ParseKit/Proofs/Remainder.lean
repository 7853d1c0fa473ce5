import ParseKit.Parser.Input
import ParseKit.Parser.Number
import ParseKit.Parser.Separated
import ParseKit.Proofs.Results

/-! What a parser leaves of its input. Any relation between inputs and what may remain of them
that is reflexive and transitive is kept by every combinator; parsers of texts leave a suffix. -/
namespace ParseKit

structure Remainder (σ : Type) where
  holds : σ → σ → Prop
  refl : ∀ x, holds x x
  trans : ∀ {x y z}, holds x y → holds y z → holds x z

def Remainder.suffix : Remainder Text where
  holds text rest := rest <:+ text
  refl := List.suffix_refl
  trans first second := second.trans first

def Outcome.Within {σ α : Type} (R : Remainder σ) (x : σ) : Outcome σ α → Prop
  | failure => True
  | success _ rest => R.holds x rest

theorem Outcome.Within.after {σ α : Type} {R : Remainder σ} {x y : σ} {o : Outcome σ α}
    (second : o.Within R y) (first : R.holds x y) : o.Within R x := by
  cases o with
  | failure => trivial
  | success v rest => exact R.trans first second

namespace Parser

def Leaves {σ ω α : Type} (R : Remainder σ) (p : Parser σ ω α) : Prop :=
  ∀ x, (p x).Gives fun o => o.Within R x

namespace Leaves
section
variable {σ ω α β γ : Type} {R : Remainder σ}

theorem ret (v : α) : Leaves R (Parser.ret v : Parser σ ω α) := fun x => .done (R.refl x)

theorem fail : Leaves R (Parser.fail : Parser σ ω α) := fun _ => .done trivial

theorem bind {p : Parser σ ω α} {f : α → Parser σ ω β} (head : Leaves R p)
    (tail : ∀ v, Leaves R (f v)) : Leaves R (p.bind f) := fun x =>
  (head x).bind fun
    | .failure, _ => .done trivial
    | .success v rest, first => (tail v rest).weaken fun _ second => second.after first

theorem alt {a b : Parser σ ω α} (left : Leaves R a) (right : Leaves R b) :
    Leaves R (a.alt b) := fun x =>
  (left x).bind fun
    | .failure, _ => right x
    | .success _ _, first => .done first

theorem mapM {p : Parser σ ω α} (head : Leaves R p) (f : α → Eff ω β) :
    Leaves R (p.mapM f) := fun x =>
  (head x).bind fun
    | .failure, _ => .done trivial
    | .success _ _, first => .after fun _ => .done first

theorem map {p : Parser σ ω α} (head : Leaves R p) (f : α → β) : Leaves R (p.map f) :=
  head.mapM _

theorem filterM {p : Parser σ ω α} (head : Leaves R p) (test : α → Eff ω Bool) :
    Leaves R (p.filterM test) :=
  head.bind fun v rest => .after fun kept => by
    cases kept with
    | true => exact .done (R.refl rest)
    | false => exact .done trivial

theorem option (default : α) {p : Parser σ ω α} (head : Leaves R p) :
    Leaves R (Parser.option default p) := head.alt (.ret default)

theorem optional {p : Parser σ ω α} (head : Leaves R p) : Leaves R (Parser.optional p) :=
  (head.bind fun _ => .ret ()).alt (.ret ())

theorem pair {a : Parser σ ω α} {b : Parser σ ω β} (left : Leaves R a) (right : Leaves R b) :
    Leaves R (a.pair b) := fun x =>
  (left x).bind fun
    | .failure, _ => .done trivial
    | .success _ rest, first => (right rest).bind fun
      | .failure, _ => .done trivial
      | .success _ _, second => .done (R.trans first second)

theorem keepRight {a : Parser σ ω α} {b : Parser σ ω β} (left : Leaves R a)
    (right : Leaves R b) : Leaves R (a.keepRight b) := left.bind fun _ => right

theorem keepLeft {a : Parser σ ω α} {b : Parser σ ω β} (left : Leaves R a)
    (right : Leaves R b) : Leaves R (a.keepLeft b) := left.bind fun _ => right.map _

theorem between {a : Parser σ ω α} {b : Parser σ ω β} {p : Parser σ ω γ} (opening : Leaves R a)
    (closing : Leaves R b) (inner : Leaves R p) : Leaves R (Parser.between a b p) :=
  opening.bind fun _ => inner.bind fun _ => closing.bind fun _ => .ret _

theorem sequenceFrom {ps : List (Parser σ ω α)} (each : ∀ p ∈ ps, Leaves R p) (seen : List α) :
    Leaves R (Parser.sequenceFrom seen ps) := by
  induction ps generalizing seen with
  | nil => exact .ret _
  | cons p ps ih =>
    exact (each p List.mem_cons_self).bind fun v =>
      ih (fun q member => each q (List.mem_cons_of_mem p member)) (v :: seen)

theorem sequence {ps : List (Parser σ ω α)} (each : ∀ p ∈ ps, Leaves R p) :
    Leaves R (Parser.sequence ps) := sequenceFrom each []

theorem countFrom {p : Parser σ ω α} (head : Leaves R p) (seen : List α) (n : Nat) :
    Leaves R (Parser.countFrom p seen n) := by
  induction n generalizing seen with
  | zero => exact .ret _
  | succ n ih => exact head.bind fun v => ih (v :: seen)

theorem count {p : Parser σ ω α} (head : Leaves R p) (n : Int) : Leaves R (Parser.count n p) :=
  countFrom head [] n.toNat

theorem repeatFrom {p : Parser σ ω α} (head : Leaves R p) (limit : Nat) (seen : List α) (x : σ) :
    (Parser.repeatFrom p limit seen x).Gives fun r => R.holds x r.2 := by
  induction limit generalizing seen x with
  | zero =>
    unfold Parser.repeatFrom
    exact (head x).bind fun
      | .failure, _ => .done (R.refl x)
      | .success _ _, _ => .exhausted
  | succ limit ih =>
    unfold Parser.repeatFrom
    exact (head x).bind fun
      | .failure, _ => .done (R.refl x)
      | .success v rest, first => (ih (v :: seen) rest).weaken fun _ last => R.trans first last

theorem repeated {p : Parser σ ω α} (head : Leaves R p) (limit least : Nat) :
    Leaves R (Parser.repeated limit least p) := by
  intro x
  refine (repeatFrom head limit [] x).bind fun ⟨values, rest⟩ last => ?_
  dsimp only
  split
  · exact .done trivial
  · exact .done last

theorem sepBy1Within {p : Parser σ ω α} {sep : Parser σ ω β} (operand : Leaves R p)
    (separator : Leaves R sep) (limit : Nat) : Leaves R (Parser.sepBy1Within limit p sep) :=
  operand.bind fun _ => ((separator.keepRight operand).repeated limit 0).bind fun _ => .ret _

theorem sepByWithin {p : Parser σ ω α} {sep : Parser σ ω β} (operand : Leaves R p)
    (separator : Leaves R sep) (limit : Nat) : Leaves R (Parser.sepByWithin limit p sep) :=
  (sepBy1Within operand separator limit).alt (.ret [])

theorem chainFrom {p : Parser σ ω α} {op : Parser σ ω (α → α → Eff ω α)} (operand : Leaves R p)
    (operator : Leaves R op) (limit : Nat) (value : α) (x : σ) :
    (Parser.chainFrom p op limit value x).Gives fun r => R.holds x r.2 := by
  induction limit generalizing value x with
  | zero =>
    unfold Parser.chainFrom
    exact (operator x).bind fun
      | .failure, _ => .done (R.refl x)
      | .success _ rest, _ => (operand rest).bind fun
        | .failure, _ => .done (R.refl x)
        | .success _ _, _ => .after fun _ => .exhausted
  | succ limit ih =>
    unfold Parser.chainFrom
    exact (operator x).bind fun
      | .failure, _ => .done (R.refl x)
      | .success _ rest, first => (operand rest).bind fun
        | .failure, _ => .done (R.refl x)
        | .success _ rest, second => .after fun value =>
          (ih value rest).weaken fun _ last => R.trans (R.trans first second) last

theorem chainAfter {p : Parser σ ω α} {op : Parser σ ω (α → α → Eff ω α)} (operand : Leaves R p)
    (operator : Leaves R op) (limit : Nat) (first : α) :
    Leaves R (Parser.chainAfter limit p op first) := fun x =>
  (chainFrom operand operator limit first x).bind fun _ last => .done last

theorem numeralOf {minus point digits digits1 : Parser σ ω Text} (sign : Leaves R minus)
    (dot : Leaves R point) (whole : Leaves R digits) (fraction : Leaves R digits1) :
    Leaves R (Parser.numeralOf minus point digits digits1) := by
  rw [Parser.numeralOfBind]
  have behind := dot.bind fun v => fraction.bind fun u => ret (v ++ u)
  exact (sign.option []).bind fun _ => whole.bind fun _ => (behind.option []).bind fun _ => .ret _

theorem converted (float : Text → Option Binary64) (text : Text) :
    Leaves R (Parser.converted float text : Parser σ ω Binary64) := by
  rcases Parser.convertedCases float text with same | ⟨x, same⟩
  · exact same σ ω ▸ .fail
  · exact same σ ω ▸ .ret x

theorem wholeInput [Journal ω] [Shown σ] {p : Parser σ ω α} (head : Leaves R p) (source : Text)
    (x : σ) : (Parser.wholeInput p source x).Gives fun r => ∀ input rest word,
      r = .error (.leftover input rest word) →
        input = x ∧ R.holds x rest ∧ Shown.isEnd rest = false :=
  (head x).bind fun
    | .failure, _ => .after fun _ => .done nofun
    | .success v rest, first => by
      dsimp only
      split
      · exact .done nofun
      · next more =>
        refine .after fun _ => .done fun input rest word same => ?_
        cases same
        exact ⟨rfl, first, Bool.not_eq_true _ ▸ more⟩

end

section
variable {ω α : Type}

theorem item : Leaves .suffix (Parser.item : Parser Text ω Char)
  | [] => .done trivial
  | c :: rest => .done (List.suffix_cons c rest)

theorem sat (test : Char → Bool) : Leaves .suffix (Parser.sat test : Parser Text ω Char) :=
  item.filterM _

theorem string (word : Text) : Leaves .suffix (Parser.string word : Parser Text ω Text) := by
  intro text
  unfold Parser.string
  cases found : text.afterWord? word with
  | none => exact .done trivial
  | some rest => exact .done ⟨word, (Text.afterWordIff.mp found).symm⟩

theorem many {p : Parser Text ω α} (head : Leaves .suffix p) : Leaves .suffix (Parser.many p) :=
  fun text => head.repeated text.length 0 text

theorem many1 {p : Parser Text ω α} (head : Leaves .suffix p) : Leaves .suffix (Parser.many1 p) :=
  fun text => head.repeated text.length 1 text

theorem num : Leaves .suffix (Parser.num : Parser Text ω Binary64) :=
  (numeralOf ((sat _).map _) ((sat _).map _) ((many ((sat _).map _)).map _)
    ((many1 ((sat _).map _)).map _)).bind (converted _)

theorem eof : Leaves .suffix (Parser.eof : Parser Text ω Unit)
  | [] => .done (List.suffix_refl [])
  | _ :: _ => .done trivial

theorem trace [Journal ω] (label : Text) :
    Leaves .suffix (Parser.trace label : Parser Text ω Unit) := fun text =>
  .after fun _ => .done (List.suffix_refl text)

end
end Leaves
end Parser
end ParseKit
