import Mathlib.Data.List.Forall2
import Mathlib.Order.Basic
import ParseKit.Proofs.Settling

/-! Runs that follow other runs, step by step. What the two have in common is said in a world,
which grows while they run. The one that follows may run with any limit, so that it is a run for
each. What it is to follow is left open here, but for a few laws: of these a run in two parts is
the chief one. Every combinator keeps parsers that follow each other. -/
namespace ParseKit
open Script (repeatRest repeatRound chainRest chainRound pairBind)

structure Likeness (World : Type) [Preorder World] (α β : Type) where
  holds : World → α → β → Prop
  grow : ∀ {v w a b}, v ≤ w → holds v a b → holds w a b

inductive OneWorld where
  | only

instance : Preorder OneWorld where
  le _ _ := True
  le_refl _ := trivial
  le_trans _ _ _ _ _ := trivial

section
variable {World : Type} [Preorder World] {α β γ δ ε ζ σ τ ω ω' : Type}

namespace Likeness

def such (post : α → Prop) : Likeness World α α := ⟨fun _ a b => a = b ∧ post a, fun _ => id⟩

def same : Likeness World α α := ⟨fun _ a b => a = b, fun _ => id⟩

def outcome (rests : Likeness World σ τ) (values : Likeness World α β) :
    Likeness World (Outcome σ α) (Outcome τ β) where
  holds w
    | .failure, .failure => True
    | .success a x, .success b y => values.holds w a b ∧ rests.holds w x y
    | _, _ => False
  grow {_ _ o p} le alike := by
    cases o <;> cases p <;> simp_all
    exact ⟨values.grow le alike.1, rests.grow le alike.2⟩

def pair (first : Likeness World α β) (second : Likeness World γ δ) :
    Likeness World (α × γ) (β × δ) where
  holds w a b := first.holds w a.1 b.1 ∧ second.holds w a.2 b.2
  grow le alike := ⟨first.grow le alike.1, second.grow le alike.2⟩

def list (each : Likeness World α β) : Likeness World (List α) (List β) where
  holds w := List.Forall₂ (each.holds w)
  grow le alike := alike.imp fun _ _ => each.grow le

theorem sameList {w : World} {as bs : List α}
    (alike : (same : Likeness World α α).list.holds w as bs) : as = bs :=
  List.forall₂_eq_eq_eq (α := α) ▸ alike

end Likeness

/- A sense in which runs, one for each limit, follow another one. Where the first is cut short
nothing is said. -/
structure Simulation (World : Type) [Preorder World] (ω ω' : Type) where
  Follows : {α β : Type} → World → Likeness World α β → Eff ω α → (Nat → Eff ω' β) → Prop
  grow : ∀ {α β v w} {L : Likeness World α β} {x y}, v ≤ w → Follows v L x y → Follows w L x y
  done : ∀ {α β w} {L : Likeness World α β} {a b}, L.holds w a b →
    Follows w L (pure a) (fun _ => pure b)
  short : ∀ {α β w} {L : Likeness World α β} {y}, Follows w L Eff.exhausted y
  bind : ∀ {α β γ δ w} {L : Likeness World α β} {M : Likeness World γ δ} {x y}
    {f : α → Eff ω γ} {g : Nat → β → Eff ω' δ}, Follows w L x y →
      (∀ v a b, w ≤ v → L.holds v a b → Follows v M (f a) (fun n => g n b)) →
        Follows w M (x >>= f) (fun n => y n >>= g n)

def Simulation.Parses (S : Simulation World ω ω') (rests : Likeness World σ τ) (w : World)
    (values : Likeness World α β) (p : Parser σ ω α) (q : Nat → Parser τ ω' β) : Prop :=
  ∀ v x y, w ≤ v → rests.holds v x y → S.Follows v (rests.outcome values) (p x) (fun n => q n y)

theorem aheadBy {m : Nat} {n : Nat → Nat} (le : ∀ k, m + 1 ≤ n k) :
    ∃ less : Nat → Nat, n = fun k => less k + 1 :=
  ⟨fun k => n k - 1, funext fun k => (Nat.sub_add_cancel (Nat.le_of_add_left_le (le k))).symm⟩

namespace Simulation.Parses
variable {S : Simulation World ω ω'} {I : Likeness World σ τ} {w : World}
  {A : Likeness World α β} {B : Likeness World γ δ}

theorem grow {v : World} {p : Parser σ ω α} {q : Nat → Parser τ ω' β}
    (parses : S.Parses I v A p q) (le : v ≤ w) : S.Parses I w A p q :=
  fun u x y later => parses u x y (le.trans later)

theorem ret {a : α} {b : β} (alike : A.holds w a b) :
    S.Parses I w A (Parser.ret a) (fun _ => Parser.ret b) :=
  fun _ _ _ le input => S.done ⟨A.grow le alike, input⟩

theorem fail :
    S.Parses I w A (Parser.fail : Parser σ ω α) (fun _ => (Parser.fail : Parser τ ω' β)) :=
  fun _ _ _ _ _ => S.done trivial

theorem bind {p : Parser σ ω α} {q : Nat → Parser τ ω' β} {f : α → Parser σ ω γ}
    {g : Nat → β → Parser τ ω' δ} (head : S.Parses I w A p q)
    (tail : ∀ v a b, w ≤ v → A.holds v a b → S.Parses I v B (f a) (fun n => g n b)) :
    S.Parses I w B (p.bind f) (fun n => (q n).bind (g n)) := by
  intro v x y le input
  refine S.bind (head v x y le input) fun u o o' later alike => ?_
  cases o <;> cases o' <;> try exact alike.elim
  · exact S.done trivial
  · exact tail u _ _ (le.trans later) alike.1 u _ _ le_rfl alike.2

theorem alt {p p' : Parser σ ω α} {q q' : Nat → Parser τ ω' β} (first : S.Parses I w A p q)
    (second : S.Parses I w A p' q') : S.Parses I w A (p.alt p') (fun n => (q n).alt (q' n)) := by
  intro v x y le input
  refine S.bind (first v x y le input) fun u o o' later alike => ?_
  cases o <;> cases o' <;> try exact alike.elim
  · exact second u x y (le.trans later) (I.grow later input)
  · exact S.done alike

theorem mapM {p : Parser σ ω α} {q : Nat → Parser τ ω' β} {f : α → Eff ω γ}
    {g : Nat → β → Eff ω' δ} (head : S.Parses I w A p q)
    (tail : ∀ v a b, w ≤ v → A.holds v a b → S.Follows v B (f a) (fun n => g n b)) :
    S.Parses I w B (p.mapM f) (fun n => (q n).mapM (g n)) := by
  intro v x y le input
  refine S.bind (head v x y le input) fun u o o' later alike => ?_
  cases o <;> cases o' <;> try exact alike.elim
  · exact S.done trivial
  · exact S.bind (tail u _ _ (le.trans later) alike.1) fun t c d last values =>
      S.done ⟨values, I.grow last alike.2⟩

theorem map {p : Parser σ ω α} {q : Nat → Parser τ ω' β} {f : α → γ} {g : β → δ}
    (head : S.Parses I w A p q)
    (keeps : ∀ v a b, w ≤ v → A.holds v a b → B.holds v (f a) (g b)) :
    S.Parses I w B (p.map f) (fun n => (q n).map g) :=
  head.mapM fun v a b le alike => S.done (keeps v a b le alike)

theorem filterM {p : Parser σ ω α} {q : Nat → Parser τ ω' β} {f : α → Eff ω Bool}
    {g : Nat → β → Eff ω' Bool} (head : S.Parses I w A p q)
    (tail : ∀ v a b, w ≤ v → A.holds v a b → S.Follows v .same (f a) (fun n => g n b)) :
    S.Parses I w A (p.filterM f) (fun n => (q n).filterM (g n)) := by
  refine head.bind fun v a b le alike u x y later input => ?_
  refine S.bind (S.grow later (tail v a b le alike)) fun t kept kept' last equal => ?_
  obtain rfl : kept = kept' := equal
  cases kept with
  | true => exact S.done ⟨A.grow (later.trans last) alike, I.grow last input⟩
  | false => exact S.done trivial

theorem keepRight {p : Parser σ ω α} {q : Nat → Parser τ ω' β} {p' : Parser σ ω γ}
    {q' : Nat → Parser τ ω' δ} (first : S.Parses I w A p q) (second : S.Parses I w B p' q') :
    S.Parses I w B (p.keepRight p') (fun n => (q n).keepRight (q' n)) :=
  first.bind fun _ _ _ le _ => second.grow le

theorem keepLeft {p : Parser σ ω α} {q : Nat → Parser τ ω' β} {p' : Parser σ ω γ}
    {q' : Nat → Parser τ ω' δ} (first : S.Parses I w A p q) (second : S.Parses I w B p' q') :
    S.Parses I w A (p.keepLeft p') (fun n => (q n).keepLeft (q' n)) :=
  first.bind fun _ _ _ le alike => (second.grow le).map fun _ _ _ later _ => A.grow later alike

theorem pair {p : Parser σ ω α} {q : Nat → Parser τ ω' β} {p' : Parser σ ω γ}
    {q' : Nat → Parser τ ω' δ} (first : S.Parses I w A p q) (second : S.Parses I w B p' q') :
    S.Parses I w (A.pair B) (p.pair p') (fun n => (q n).pair (q' n)) := by
  simp only [pairBind]
  exact first.bind fun _ _ _ le alike => (second.grow le).map fun _ _ _ later inside =>
    ⟨A.grow later alike, inside⟩

theorem between {C : Likeness World ε ζ} {p : Parser σ ω α} {q : Nat → Parser τ ω' β}
    {p' : Parser σ ω γ} {q' : Nat → Parser τ ω' δ} {r : Parser σ ω ε}
    {t : Nat → Parser τ ω' ζ} (opening : S.Parses I w A p q) (closing : S.Parses I w B p' q')
    (inner : S.Parses I w C r t) :
    S.Parses I w C (Parser.between p p' r) (fun n => Parser.between (q n) (q' n) (t n)) :=
  opening.bind fun _ _ _ le _ => (inner.grow le).bind fun _ _ _ later alike =>
    (closing.grow (le.trans later)).bind fun _ _ _ last _ => ret (C.grow last alike)

theorem optional {p : Parser σ ω α} {q : Nat → Parser τ ω' β} (head : S.Parses I w A p q) :
    S.Parses I w .same (Parser.optional p) (fun n => Parser.optional (q n)) :=
  (head.bind fun _ _ _ _ _ => ret rfl).alt (ret rfl)

theorem sequenceFrom {ι : Type} {ps : List (Parser σ ω α)} {items : List ι}
    {f : Nat → ι → Parser τ ω' β}
    (each : List.Forall₂ (fun p i => S.Parses I w A p fun n => f n i) ps items) {seen : List α}
    {seen' : List β} (before : A.list.holds w seen seen') :
    S.Parses I w A.list (Parser.sequenceFrom seen ps)
      (fun n => Parser.sequenceFrom seen' (items.map (f n))) := by
  induction ps generalizing items seen seen' w with
  | nil =>
    cases each
    exact ret (List.rel_reverse before)
  | cons p ps ih =>
    cases each with
    | cons first others =>
      exact first.bind fun _ _ _ le alike =>
        ih (others.imp fun _ _ parses => parses.grow le) (.cons alike (A.list.grow le before))

theorem countFrom {p : Parser σ ω α} {q : Nat → Parser τ ω' β} (head : S.Parses I w A p q)
    {seen : List α} {seen' : List β} (before : A.list.holds w seen seen') (k : Nat) :
    S.Parses I w A.list (Parser.countFrom p seen k)
      (fun n => Parser.countFrom (q n) seen' k) := by
  induction k generalizing seen seen' w with
  | zero => exact ret (List.rel_reverse before)
  | succ k ih =>
    exact head.bind fun v a b le alike => ih (head.grow le) (.cons alike (A.list.grow le before))

theorem repeatFrom {p : Parser σ ω α} {q : Nat → Parser τ ω' β} (head : S.Parses I w A p q)
    {m : Nat} {n : Nat → Nat} (le : ∀ k, m ≤ n k) {seen : List α} {seen' : List β}
    (before : A.list.holds w seen seen') {x : σ} {y : τ} (input : I.holds w x y) :
    S.Follows w (A.list.pair I) (Parser.repeatFrom p m seen x)
      (fun k => Parser.repeatFrom (q k) (n k) seen' y) := by
  induction m generalizing n seen seen' x y w with
  | zero =>
    simp only [repeatRound]
    refine S.bind (head w x y le_rfl input) fun v o o' later alike => ?_
    cases o <;> cases o' <;> try exact alike.elim
    · exact S.done ⟨List.rel_reverse (A.list.grow later before), I.grow later input⟩
    · exact S.short
  | succ m ih =>
    obtain ⟨n, rfl⟩ := aheadBy le
    simp only [repeatRound]
    refine S.bind (head w x y le_rfl input) fun v o o' later alike => ?_
    cases o <;> cases o' <;> try exact alike.elim
    · exact S.done ⟨List.rel_reverse (A.list.grow later before), I.grow later input⟩
    · exact ih (head.grow later) (fun k => Nat.le_of_succ_le_succ (le k))
        (.cons alike.1 (A.list.grow later before)) alike.2

theorem repeated {p : Parser σ ω α} {q : Nat → Parser τ ω' β} (head : S.Parses I w A p q)
    {m : Nat} {n : Nat → Nat} (le : ∀ k, m ≤ n k) (least : Nat) :
    S.Parses I w A.list (Parser.repeated m least p)
      (fun k => Parser.repeated (n k) least (q k)) := by
  intro v x y later input
  refine S.bind (repeatFrom (head.grow later) le .nil input) fun u r r' _ alike => ?_
  have lengths : r.1.length = r'.1.length := alike.1.length_eq
  dsimp only
  rw [lengths]
  split
  · exact S.done trivial
  · exact S.done alike

theorem sepBy1Within {p : Parser σ ω α} {q : Nat → Parser τ ω' β} {p' : Parser σ ω γ}
    {q' : Nat → Parser τ ω' δ} (operand : S.Parses I w A p q) (separator : S.Parses I w B p' q')
    {m : Nat} {n : Nat → Nat} (le : ∀ k, m ≤ n k) :
    S.Parses I w A.list (Parser.sepBy1Within m p p')
      (fun k => Parser.sepBy1Within (n k) (q k) (q' k)) :=
  operand.bind fun _ _ _ later first =>
    (((separator.keepRight operand).grow later).repeated le 0).bind fun _ _ _ last others =>
      ret (.cons (A.grow last first) others)

theorem sepByWithin {p : Parser σ ω α} {q : Nat → Parser τ ω' β} {p' : Parser σ ω γ}
    {q' : Nat → Parser τ ω' δ} (operand : S.Parses I w A p q) (separator : S.Parses I w B p' q')
    {m : Nat} {n : Nat → Nat} (le : ∀ k, m ≤ n k) :
    S.Parses I w A.list (Parser.sepByWithin m p p')
      (fun k => Parser.sepByWithin (n k) (q k) (q' k)) :=
  (operand.sepBy1Within separator le).alt (ret .nil)

section
variable {ι κ : Type} {O : Likeness World ι κ} {p : Parser σ ω α} {q : Nat → Parser τ ω' β}
  {op : Parser σ ω ι} {op' : Nat → Parser τ ω' κ} {f : ι → α → α → Eff ω α}
  {g : Nat → κ → β → β → Eff ω' β}
  (operand : S.Parses I w A p q) (operator : S.Parses I w O op op')
  (combine : ∀ v i j a b c d, w ≤ v → O.holds v i j → A.holds v a b → A.holds v c d →
    S.Follows v A (f i a c) (fun k => g k j b d))
include operand operator combine

theorem chainFrom {m : Nat} {n : Nat → Nat} (le : ∀ k, m ≤ n k) {a : α} {b : β}
    (first : A.holds w a b) {x : σ} {y : τ} (input : I.holds w x y) :
    S.Follows w (A.pair I) (Parser.chainFrom p (op.map f) m a x)
      (fun k => Parser.chainFrom (q k) ((op' k).map (g k)) (n k) b y) := by
  induction m generalizing n a b x y w with
  | zero =>
    simp only [chainRound]
    refine S.bind ((operator.pair operand) w x y le_rfl input) fun v o o' later alike => ?_
    cases o <;> cases o' <;> try exact alike.elim
    · exact S.done ⟨A.grow later first, I.grow later input⟩
    · exact S.bind (combine v _ _ _ _ _ _ later alike.1.1 (A.grow later first) alike.1.2)
        fun _ _ _ _ _ => S.short
  | succ m ih =>
    obtain ⟨n, rfl⟩ := aheadBy le
    simp only [chainRound]
    refine S.bind ((operator.pair operand) w x y le_rfl input) fun v o o' later alike => ?_
    cases o <;> cases o' <;> try exact alike.elim
    · exact S.done ⟨A.grow later first, I.grow later input⟩
    · refine S.bind (combine v _ _ _ _ _ _ later alike.1.1 (A.grow later first) alike.1.2)
        fun _ _ _ last values => ?_
      have grown := later.trans last
      exact ih (operand.grow grown) (operator.grow grown)
        (fun t i j a b c d le => combine t i j a b c d (grown.trans le))
        (fun k => Nat.le_of_succ_le_succ (le k)) values (I.grow last alike.2)

theorem chainAfter {m : Nat} {n : Nat → Nat} (le : ∀ k, m ≤ n k) {a : α} {b : β}
    (first : A.holds w a b) :
    S.Parses I w A (Parser.chainAfter m p (op.map f) a)
      (fun k => Parser.chainAfter (n k) (q k) ((op' k).map (g k)) b) :=
  fun _ _ _ later input => S.bind (chainFrom (operand.grow later) (operator.grow later)
      (fun t i j a b c d le => combine t i j a b c d (later.trans le)) le (A.grow later first) input)
    fun _ _ _ _ alike => S.done alike

end

end Simulation.Parses
end
end ParseKit
