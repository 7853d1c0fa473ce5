import ParseKit.Proofs.Suffix

/-! Parsers that never fail, as far as their form shows it: those that can do with nothing of the
input, those whose parts never fail, and alternatives of which one never fails. Main statement: such
a parser succeeds wherever it ends without a fault, and what stands behind it as an alternative is
never tried. -/
namespace ParseKit
namespace Parser
variable {σ ω α β γ : Type}

def Succeeds (p : Parser σ ω α) : Prop := ∀ x, (p x).Gives fun o => o.isSuccess = true

namespace Succeeds

theorem ret (v : α) : Succeeds (Parser.ret v : Parser σ ω α) := fun _ => .done rfl

theorem bind {p : Parser σ ω α} {f : α → Parser σ ω β} (head : Succeeds p)
    (tail : ∀ v, Succeeds (f v)) : Succeeds (p.bind f) := fun x =>
  (head x).bind fun
    | .success v rest, _ => tail v rest

theorem alt (a : Parser σ ω α) {b : Parser σ ω α} (last : Succeeds b) : Succeeds (a.alt b) :=
  fun x => .after fun
    | .failure => last x
    | .success _ _ => .done rfl

theorem mapM {p : Parser σ ω α} (head : Succeeds p) (f : α → Eff ω β) : Succeeds (p.mapM f) :=
  fun x => (head x).bind fun
    | .success _ _, _ => .after fun _ => .done rfl

theorem map {p : Parser σ ω α} (head : Succeeds p) (f : α → β) : Succeeds (p.map f) :=
  head.mapM _

theorem pair {a : Parser σ ω α} {b : Parser σ ω β} (left : Succeeds a) (right : Succeeds b) :
    Succeeds (a.pair b) := fun x =>
  (left x).bind fun
    | .success _ rest, _ => (right rest).bind fun
      | .success _ _, _ => .done rfl

theorem keepLeft {a : Parser σ ω α} {b : Parser σ ω β} (left : Succeeds a) (right : Succeeds b) :
    Succeeds (a.keepLeft b) := left.bind fun _ => right.map _

theorem between {a : Parser σ ω α} {b : Parser σ ω β} {p : Parser σ ω γ} (opening : Succeeds a)
    (closing : Succeeds b) (inner : Succeeds p) : Succeeds (Parser.between a b p) :=
  opening.bind fun _ => inner.bind fun _ => closing.bind fun _ => .ret _

theorem sequenceFrom {ps : List (Parser σ ω α)} (each : ∀ p ∈ ps, Succeeds p) (seen : List α) :
    Succeeds (Parser.sequenceFrom seen ps) := by
  induction ps generalizing seen with
  | nil => exact .ret _
  | cons p ps ih =>
    obtain ⟨first, others⟩ := List.forall_mem_cons.mp each
    exact first.bind fun v => ih others (v :: seen)

theorem countFrom {p : Parser σ ω α} {n : Nat} (head : 0 < n → Succeeds p) (seen : List α) :
    Succeeds (Parser.countFrom p seen n) := by
  induction n generalizing seen with
  | zero => exact .ret _
  | succ n ih => exact (head n.succ_pos).bind fun v => ih (fun _ => head n.succ_pos) (v :: seen)

theorem repeatedAny (p : Parser σ ω α) (limit : Nat) : Succeeds (Parser.repeated limit 0 p) :=
  fun _ => .after fun ⟨values, _⟩ => by
    dsimp only
    rw [if_neg (Nat.not_lt_zero values.length)]
    exact .done rfl

theorem repeatFromNever {p : Parser σ ω α} (head : Succeeds p) (limit : Nat) (seen : List α)
    (x : σ) : (Parser.repeatFrom p limit seen x).Gives fun _ => False := by
  induction limit generalizing seen x with
  | zero =>
    unfold Parser.repeatFrom
    refine (head x).bind fun o succeeded => ?_
    cases o with
    | failure => cases succeeded
    | success v rest => exact .exhausted
  | succ limit ih =>
    unfold Parser.repeatFrom
    refine (head x).bind fun o succeeded => ?_
    cases o with
    | failure => cases succeeded
    | success v rest => exact ih (v :: seen) rest

theorem repeated {p : Parser σ ω α} (head : Succeeds p) (limit least : Nat) :
    Succeeds (Parser.repeated limit least p) := fun x =>
  (repeatFromNever head limit [] x).bind fun _ never => never.elim

theorem sepBy1Within {p : Parser σ ω α} (operand : Succeeds p) (sep : Parser σ ω β)
    (limit : Nat) : Succeeds (Parser.sepBy1Within limit p sep) :=
  operand.bind fun _ => (repeatedAny (sep.keepRight p) limit).bind fun _ => .ret _

theorem chainAfter (p : Parser σ ω α) (op : Parser σ ω (α → α → Eff ω α)) (limit : Nat)
    (first : α) : Succeeds (Parser.chainAfter limit p op first) := fun _ =>
  .after fun _ => .done rfl

end Succeeds
end Parser

namespace Script
open ParseKit.Parser (Succeeds)

section
variable {ω : Type}

theorem readingSucceeds {α : Type} {onTexts : Parser Text ω α} (texts : Succeeds onTexts)
    (value : α → Value) {onOthers : Parser Value ω Value} (others : Succeeds onOthers) :
    Succeeds (reading onTexts value onOthers) := by
  intro x
  cases x with
  | str text =>
    exact (texts text).bind fun
      | .success _ _, _ => .done rfl
  | _ => exact others _

theorem traceSucceeds [Journal ω] (label : Text) :
    Succeeds (Script.trace label : Parser Value ω Value) := by
  refine readingSucceeds (fun _ => .after fun _ => .done rfl) _ fun x => ?_
  cases x with
  | list vs => exact .after fun _ => .done rfl
  | tuple vs => exact .after fun _ => .done rfl
  | _ => exact .raise

end

def Serves (apply : Applier) (p : Value) : Prop := ∀ x, (apply p x).Gives fun r => r.truth = true

theorem giveServes {p : Parser Value Store Value} (succeeds : Succeeds p) (x : Value) :
    (give p x).Gives fun r => r.truth = true :=
  (succeeds x).bind fun
    | .success _ _, _ => .done rfl

theorem outcomeOfTruth (part : String) {r : Value} (holds : r.truth = true) :
    (Eff.ofExcept (r.outcome part) : Run (Outcome Value Value)).Gives fun o => o.isSuccess := by
  cases r with
  | success v rest => exact .done rfl
  | _ =>
    simp only [Value.outcome, holds, if_true]
    exact .raise

theorem partsOfTruth {r : Value} (holds : r.truth = true) :
    (Eff.ofExcept r.outcomeByParts : Run (Outcome Value Value)).Gives fun o => o.isSuccess := by
  simp only [Value.outcomeByParts, holds, if_true]
  cases r.parts with
  | ok both => exact .done rfl
  | error fault => exact .raise

section
variable {apply : Applier} {p : Value} (serves : Serves apply p)
include serves

theorem readSucceeds : Succeeds (read apply p) := fun x =>
  (serves x).bind fun _ holds => outcomeOfTruth "value" holds

theorem readRestSucceeds : Succeeds (readRest apply p) := fun x =>
  (serves x).bind fun _ holds => outcomeOfTruth "remaining" holds

theorem readPartsSucceeds : Succeeds (readParts apply p) := fun x =>
  (serves x).bind fun _ holds => partsOfTruth holds

theorem readWithSucceeds (operation : String) : Succeeds (readWith apply operation p) := by
  cases p with
  | parser mark g => exact readSucceeds serves
  | _ => exact fun _ => .raise

end

theorem firstOfServes {apply : Applier} {ps : List Value} {p : Value} (member : p ∈ ps)
    (serves : Serves apply p) (x : Value) :
    (firstOf apply ps x).Gives fun r => r.truth = true := by
  match ps with
  | [] => cases member
  | [q] =>
    cases List.mem_singleton.mp member
    exact serves x
  | q :: q' :: ps =>
    rcases List.mem_cons.mp member with rfl | later
    · refine (serves x).bind fun r holds => ?_
      rw [if_pos holds]
      exact .done holds
    · refine .after fun r => ?_
      split
      · next holds => exact .done holds
      · exact firstOfServes later serves x

def Grammar.needs : Grammar → Option (List Value)
  | ret _ | trace _ | repeated 0 _ _ | option _ _ | optional _ | sepBy _ _ => some []
  | map p _ | repeated (_ + 1) _ p | sepBy1 p _ | chainl1 p _ => some [p]
  | pair a b | keepRight a b | keepLeft a b => some [a, b]
  | between opening closing p => some [opening, closing, p]
  | sequenceText ps => some ps
  | count n p => some (if n ≤ 0 then [] else [p])
  | _ => none

/- Parsers that show by their form that they never fail. -/
inductive Infallible : Value → Prop where
  | form {mark : Mark} {g : Grammar} {ps : List Value} (needs : g.needs = some ps)
    (each : ∀ p ∈ ps, Infallible p) : Infallible (.parser mark g)
  | returned {mark : Mark} {p f : Value} (head : Infallible p)
    (each : ∀ limit v w q w', call limit f [v] [] w = (.done q, w') → Infallible q) :
    Infallible (.parser mark (.bind p f))
  | choice {mark : Mark} {ps : List Value} {p : Value} (member : p ∈ ps) (inner : Infallible p) :
    Infallible (.parser mark (.choice ps))

theorem formServes {apply : Applier} {g : Grammar} {ps : List Value} (needs : g.needs = some ps)
    (each : ∀ p ∈ ps, Serves apply p) (call : Caller) (limit : Nat) (x : Value) :
    (g.applyWith apply call limit x).Gives fun r => r.truth = true := by
  cases g with
  | ret v => exact giveServes (.ret v) x
  | trace label => exact giveServes (traceSucceeds label) x
  | option default p =>
    refine .after fun r => ?_
    split
    · next holds => exact .done holds
    · exact .done rfl
  | optional p => exact giveServes ((Succeeds.alt _ (.ret ())).map _) x
  | sepBy p sep => exact giveServes ((Succeeds.alt _ (.ret [])).map _) x
  | map p f =>
    cases needs
    exact giveServes ((readSucceeds (each p List.mem_cons_self)).mapM _) x
  | repeated least collect p =>
    cases least with
    | zero => exact giveServes ((Succeeds.repeatedAny _ limit).mapM _) x
    | succ least =>
      cases needs
      have inner := readSucceeds (each p List.mem_cons_self)
      exact giveServes ((inner.repeated limit (least + 1)).mapM _) x
  | sepBy1 p sep =>
    cases needs
    exact giveServes (((readSucceeds (each p List.mem_cons_self)).sepBy1Within _ limit).map _) x
  | chainl1 p op =>
    cases needs
    exact giveServes ((readPartsSucceeds (each p List.mem_cons_self)).bind fun first =>
      .chainAfter _ _ limit first) x
  | pair a b =>
    cases needs
    have left := readRestSucceeds (each a List.mem_cons_self)
    have right := readSucceeds (each b (by simp))
    exact giveServes ((left.pair right).map _) x
  | keepRight a b =>
    cases needs
    refine (readSucceeds (each a List.mem_cons_self) x).bind fun
      | .success _ rest, _ => each b (by simp) rest
  | keepLeft a b =>
    cases needs
    have left := readSucceeds (each a List.mem_cons_self)
    have right := readWithSucceeds (each b (by simp)) "map"
    exact giveServes (left.keepLeft right) x
  | between opening closing p =>
    cases needs
    have first := readSucceeds (each opening List.mem_cons_self)
    have last := readWithSucceeds (each closing (by simp)) "bind"
    have inner := readWithSucceeds (each p (by simp)) "bind"
    exact giveServes (first.between last inner) x
  | sequenceText qs =>
    cases needs
    refine giveServes ((Succeeds.sequenceFrom (fun p member => ?_) []).mapM _) x
    obtain ⟨v, inside, rfl⟩ := List.mem_map.mp member
    exact readSucceeds (each v inside)
  | count n p =>
    cases needs
    have head : 0 < n.toNat → Succeeds (read apply p) := fun positive =>
      readSucceeds (each p (by simp [show ¬n ≤ 0 by omega]))
    exact giveServes ((Succeeds.countFrom head []).map _) x
  | _ => cases needs

theorem infallibleServes {p : Value} (infallible : Infallible p) (limit : Nat) :
    Serves (apply limit) p := by
  induction infallible generalizing limit with
  | form needs _ ih =>
    cases limit with
    | zero => exact fun _ => .exhausted
    | succ limit => exact formServes needs (fun p member => ih p member limit) (call limit) limit
  | returned _ _ head each =>
    cases limit with
    | zero => exact fun _ => .exhausted
    | succ limit =>
      refine fun x => (readSucceeds (head limit) x).bind fun
        | .success v rest, _ => ?_
      intro w r w' run
      obtain ⟨q, u, called, applied⟩ := Eff.bindDoneIff.mp run
      exact each limit v w q u called limit rest u r w' applied
  | choice member _ ih =>
    cases limit with
    | zero => exact fun _ => .exhausted
    | succ limit => exact firstOfServes member (ih limit)

/-- A parser that never fails by its form gives no failure, and where nothing but parsers is applied
it gives successes only. An alternative behind it changes nothing, be it a value, a fault or an
event. -/
theorem infallibleSucceeds {p : Value} (infallible : Infallible p) (limit : Nat) (x : Value) :
    (∀ w r w', apply limit p x w = (.done r, w') → r.truth = true ∧
      (OnlyParsers limit p x w → ∃ v rest, r = .success v rest)) ∧
    ∀ mark q, apply (limit + 1) (.parser mark (.choice [p, q])) x = apply limit p x := by
  have serves := infallibleServes infallible limit x
  refine ⟨fun w r w' run => ⟨serves w r w' run, fun only => ?_⟩, fun mark q => ?_⟩
  · have inside := applyParserLeaves limit p x w r w' (only.trans run)
    have holds := serves w r w' run
    cases r with
    | success v rest => exact ⟨v, rest, rfl⟩
    | failure => cases holds
    | _ => exact inside.elim
  · refine (serves.congr fun r holds => ?_).trans (bind_pure _)
    exact if_pos holds

def tally : Value :=
  .lambda 0 ["xs"] (.unary .ret (.call (.builtin .len) [.var "xs"] [])) []

def tallied : Value :=
  let comma : Value := .parser (.made 1) (.char (.str [',']))
  .parser (.made 3) (.bind (.parser (.made 2) (.sepBy Atom.item.value comma)) tally)

theorem talliedInfallible : Infallible tallied := by
  refine .returned (.form rfl nofun) fun limit v w q w' run => ?_
  cases limit with
  | zero => cases run
  | succ limit =>
    obtain ⟨n, u, -, made⟩ := Eff.bindDoneIff.mp run
    cases made
    exact .form rfl nofun

theorem talliedSucceeds : Infallible tallied ∧
    (apply 8 tallied (.str ['a', ',']) .empty).1 =
      .done (.success (.int 1) (.str [','])) ∧
    (∃ v rest, Value.success (.int 1) (.str [',']) = .success v rest) ∧
    apply 9 (.parser (.made 4) (.choice [tallied, Atom.item.value])) (.str ['a', ',']) =
      apply 8 tallied (.str ['a', ',']) := by
  have only : OnlyParsers 8 tallied (.str ['a', ',']) .empty := by cbv
  have ended : (apply 8 tallied (.str ['a', ',']) .empty).1 =
      .done (.success (.int 1) (.str [','])) := by cbv
  obtain ⟨succeeds, choice⟩ := infallibleSucceeds talliedInfallible 8 (.str ['a', ','])
  exact ⟨talliedInfallible, ended, (succeeds .empty _ _ (Prod.ext ended rfl)).2 only, choice _ _⟩

end Script
end ParseKit
