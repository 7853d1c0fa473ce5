import ParseKit.Parser.Number
import ParseKit.Proofs.Approximation
import ParseKit.Proofs.Reading

/-! Numerals as they are written. The parts of a numeral are each there or left out, and are read as
far as they go. Main statement: what is read is one numeral, put together again as a text, and the
conversion of that text has its parts apart. -/
namespace ParseKit
open ParseKit.Parser

abbrev isDigit : Char → Bool := CharClass.digit.holds

structure Numeral.Plain (n : Numeral) : Prop where
  whole : ∀ c ∈ n.whole, isDigit c = true
  fraction : ∀ c ∈ n.fraction, isDigit c = true

def pointed (fraction : Text) : Text := if fraction.isEmpty then [] else '.' :: fraction

/- What may follow a numeral that is read as far as possible. -/
structure Numeral.Ends (n : Numeral) (rest : Text) : Prop where
  digits : StopsAt isDigit rest
  point : n.fraction = [] → ∀ c more, rest = '.' :: c :: more → isDigit c = false

theorem pointedSome {fraction : Text} (some : fraction ≠ []) : pointed fraction = '.' :: fraction := by
  cases fraction with
  | nil => exact absurd rfl some
  | cons c fraction => rfl

theorem pointedStops {fraction rest : Text} (stops : fraction = [] → StopsAt isDigit rest) :
    StopsAt isDigit (pointed fraction ++ rest) := by
  cases fraction with
  | nil => exact stops rfl
  | cons c fraction =>
    intro d more same
    cases same
    rfl

def startsLiteral (c : Char) : Bool := c == '-' || c == '.' || isDigit c

theorem positiveStart {n : Numeral} (plain : n.Plain) (positive : n.negative = false) {c : Char}
    {more : Text} (start : n.text = c :: more) : c = '.' ∨ isDigit c = true := by
  obtain ⟨negative, whole, fraction⟩ := n
  cases positive
  cases whole with
  | cons d whole =>
    obtain ⟨rfl, -⟩ := List.cons.inj start
    exact .inr (plain.whole d List.mem_cons_self)
  | nil =>
    cases fraction with
    | cons d fraction =>
      obtain ⟨rfl, -⟩ := List.cons.inj start
      exact .inl rfl
    | nil => cases start

theorem positiveNoMinus {n : Numeral} (plain : n.Plain) (positive : n.negative = false)
    (more : Text) : n.text ≠ '-' :: more := by
  intro start
  rcases positiveStart plain positive start with dot | digit
  · cases dot
  · cases digit

theorem numeralCharacters {n : Numeral} (plain : n.Plain) :
    ∀ c ∈ n.text, startsLiteral c = true := by
  obtain ⟨minus, whole, fraction⟩ := n
  have digits : ∀ c, isDigit c = true → startsLiteral c = true := by simp_all [startsLiteral]
  have sign : ∀ c ∈ (if minus then ['-'] else []), startsLiteral c = true := by
    cases minus <;> simp [startsLiteral]
  have behind : ∀ c ∈ pointed fraction, startsLiteral c = true := by
    cases fraction with
    | nil => exact List.forall_mem_nil _
    | cons d fraction =>
      have inFraction := fun c member => digits c (plain.fraction c member)
      exact List.forall_mem_cons.mpr ⟨rfl, inFraction⟩
  intro c member
  have places : (c ∈ if minus then ['-'] else []) ∨ c ∈ whole ∨ c ∈ pointed fraction := by
    simpa [Numeral.text, pointed, or_assoc] using member
  rcases places with inSign | inWhole | inFraction
  · exact sign c inSign
  · exact digits c (plain.whole c inWhole)
  · exact behind c inFraction

theorem digitStarts {n : Numeral} (plain : n.Plain) (digit : n.hasDigit = true) :
    ∃ c more, n.text = c :: more ∧ startsLiteral c = true := by
  have characters := numeralCharacters plain
  cases written : n.text with
  | cons c more => exact ⟨c, more, rfl, characters c (written ▸ List.mem_cons_self)⟩
  | nil =>
    obtain ⟨negative, whole, fraction⟩ := n
    cases negative <;> cases whole <;> cases fraction <;> cases written
    cases digit

theorem ofUnsignedPlain (negative : Bool) {whole fraction : Text}
    (digits : ∀ c ∈ whole, isDigit c = true) (behind : ∀ c ∈ fraction, isDigit c = true) :
    Numeral.ofUnsigned? negative (whole ++ pointed fraction) =
      some ⟨negative, whole, fraction⟩ := by
  unfold Numeral.ofUnsigned?
  rw [List.takeWhile_append_of_pos digits, List.dropWhile_append_of_pos digits]
  cases fraction with
  | nil => simp [pointed]
  | cons d fraction =>
    have all : (d :: fraction).all isDigit = true := List.all_eq_true.mpr behind
    have dot : CharClass.digit.holds '.' = false := rfl
    simp [pointed, dot, all]

theorem ofTextPlain {n : Numeral} (plain : n.Plain) : Numeral.ofText? n.text = some n := by
  have unsigned := ofUnsignedPlain n.negative plain.whole plain.fraction
  obtain ⟨negative, whole, fraction⟩ := n
  cases negative with
  | true => exact unsigned
  | false =>
    refine Eq.trans ?_ unsigned
    exact Numeral.ofText?.eq_2 _ (positiveNoMinus plain rfl)

theorem floatPlain {n : Numeral} (plain : n.Plain) :
    Binary64.ofText? n.text = if n.hasDigit then some n.rounded else none := by
  rw [Binary64.ofText?, ofTextPlain plain]

theorem floatPlainIff {n : Numeral} (plain : n.Plain) (x : Binary64) :
    Binary64.ofText? n.text = some x ↔ n.hasDigit = true ∧ n.rounded = x := by
  rw [floatPlain plain, Option.ite_none_right_eq_some, Option.some_inj]

section
variable {ω : Type}

theorem repeatMap {σ α β : Type} (p : Parser σ ω α) (f : α → β) (limit : Nat) (seen : List α)
    (x : σ) : repeatFrom (p.map f) limit (seen.map f) x =
      repeatFrom p limit seen x >>= fun r => pure (r.1.map f, r.2) := by
  induction limit generalizing seen x with
  | zero =>
    unfold repeatFrom
    rw [mapBind, Eff.bindAssoc]
    refine bind_congr fun o => ?_
    cases o with
    | failure => simp
    | success v rest => rfl
  | succ limit ih =>
    unfold repeatFrom
    rw [mapBind, Eff.bindAssoc]
    refine bind_congr fun o => ?_
    cases o with
    | failure => simp
    | success v rest => exact ih (v :: seen) rest

theorem singlesRepeated {σ : Type} (p : Parser σ ω Char) (limit least : Nat) :
    (repeated limit least (single p)).map List.flatten = repeated limit least p := by
  funext x
  have texts := repeatMap p (fun c => [c]) limit [] x
  have joined (v : Text) : (v.map fun c => [c]).flatten = v := List.flatMap_singleton' v
  unfold Parser.map Parser.mapM repeated single
  refine (congrArg (fun run => (run >>= _) >>= _) texts).trans ?_
  rw [Eff.bindAssoc, Eff.bindAssoc]
  refine bind_congr fun r => ?_
  simp only [pure_bind, List.length_map]
  split
  · rfl
  · exact congrArg (fun v => (pure (Outcome.success v r.2) : Eff ω _)) (joined r.1)

theorem manySingles (p : Parser Text ω Char) : manyText (single p) = many p :=
  funext fun text => congrFun (singlesRepeated p text.length 0) text

theorem many1Singles (p : Parser Text ω Char) : many1Text (single p) = many1 p :=
  funext fun text => congrFun (singlesRepeated p text.length 1) text

theorem singleReads (test : Char → Bool) (text : Text) : Reads (single (sat test) text : Eff ω _)
    fun v rest => ∃ c, v = [c] ∧ text = c :: rest ∧ test c = true :=
  ((Reads.sat test text).map _).congr fun _ _ => exists_congr fun _ => and_comm

theorem signReads (text : Text) : Reads (option [] (single (char '-')) text : Eff ω _)
    fun sign rest => ∃ negative, sign = (if negative then ['-'] else []) ∧ text = sign ++ rest ∧
      (negative = false → ∀ more, rest ≠ '-' :: more) := by
  have one : Reads (single (char '-') text : Eff ω _) _ := singleReads _ text
  refine (one.alt (.ret [] text)).congr fun sign rest => ?_
  constructor
  · rintro ⟨negative, rfl, rfl, positive⟩
    cases negative with
    | true => exact .inl ⟨'-', rfl, rfl, rfl⟩
    | false =>
      refine .inr ⟨fun v more other => ?_, rfl, rfl⟩
      obtain ⟨c, -, same, minus⟩ := other
      cases beq_iff_eq.mp minus
      exact positive rfl more same
  · rintro (⟨c, rfl, rfl, minus⟩ | ⟨none, rfl, rfl⟩)
    · cases beq_iff_eq.mp minus
      exact ⟨true, rfl, rfl, nofun⟩
    · exact ⟨false, rfl, rfl, fun _ more same => none ['-'] more ⟨'-', rfl, same, rfl⟩⟩

def fractional : Parser Text ω Text :=
  option [] ((single (char '.')).bind fun dot => (many1 (ofClass .digit)).bind fun more =>
    ret (dot ++ more))

theorem fractionReads (text : Text) : Reads (fractional text : Eff ω _) fun behind rest =>
    ∃ fraction, behind = pointed fraction ∧ text = pointed fraction ++ rest ∧
      (∀ c ∈ fraction, isDigit c = true) ∧ (fraction ≠ [] → StopsAt isDigit rest) ∧
        (fraction = [] → ∀ c more, rest = '.' :: c :: more → isDigit c = false) := by
  have digits : Reads ((single (char '.')).bind (fun dot => (many1 (ofClass .digit)).bind
      fun more => ret (dot ++ more)) text : Eff ω _) _ :=
    (singleReads _ text).bind fun dot mid _ =>
      (many1Reads isDigit mid).bind fun more rest _ => .ret (dot ++ more) rest
  refine (digits.alt (.ret [] text)).congr fun behind rest => ?_
  constructor
  · rintro ⟨fraction, rfl, rfl, all, stops, noPoint⟩
    by_cases empty : fraction = []
    · subst empty
      refine .inr ⟨fun v more other => ?_, rfl, rfl⟩
      obtain ⟨_, mid, ⟨c, -, same, dot⟩, v, _, ⟨span, some⟩, -⟩ := other
      cases beq_iff_eq.mp dot
      obtain ⟨d, v, rfl⟩ := List.exists_cons_of_ne_nil some
      have digit := span.all d List.mem_cons_self
      have stopped := noPoint rfl d _ (same.trans (congrArg _ span.joined))
      rw [digit] at stopped
      cases stopped
    · rw [pointedSome empty]
      exact .inl ⟨['.'], fraction ++ rest, ⟨'.', rfl, rfl, rfl⟩, fraction, rest,
        ⟨⟨rfl, all, stops empty⟩, empty⟩, rfl, rfl⟩
  · rintro (⟨_, mid, ⟨c, rfl, rfl, dot⟩, fraction, _, ⟨⟨rfl, all, stops⟩, some⟩, rfl, rfl⟩ |
      ⟨none, rfl, rfl⟩)
    · cases beq_iff_eq.mp dot
      refine ⟨fraction, ?_, ?_, all, fun _ => stops, fun empty => absurd empty some⟩
      · rw [pointedSome some]
        rfl
      · rw [pointedSome some]
        rfl
    · refine ⟨[], rfl, rfl, nofun, fun some => absurd rfl some, fun _ c more same => ?_⟩
      subst same
      cases digit : isDigit c with
      | false => rfl
      | true =>
        obtain ⟨v, rest, span⟩ := spanExists isDigit (c :: more)
        have some : v ≠ [] := by
          intro empty
          subst empty
          have stopped := span.stops c more span.joined.symm
          rw [digit] at stopped
          cases stopped
        exact (none _ _ ⟨['.'], c :: more, ⟨'.', rfl, rfl, rfl⟩, v, rest, ⟨span, some⟩, rfl,
          rfl⟩).elim

/- The longest numeral at the front of a text, possibly one without digits. -/
structure NumeralAt (text : Text) (n : Numeral) (rest : Text) : Prop where
  plain : n.Plain
  ends : n.Ends rest
  joined : text = n.text ++ rest
  sign : n.negative = false → ∀ more, text ≠ '-' :: more

theorem numeralParts : (numeral : Parser Text ω Text) = (option [] (single (char '-'))).bind
    fun sign => (many (ofClass .digit)).bind fun whole => fractional.bind fun fraction =>
      ret (sign ++ (whole ++ fraction)) := by
  rw [numeral, numeralOfBind, manySingles, many1Singles]
  rfl

theorem numeralReads (text : Text) : Reads (numeral text : Eff ω _) fun written rest =>
    ∃ n, NumeralAt text n rest ∧ written = n.text := by
  have parts : Reads (((option [] (single (char '-'))).bind fun sign => (many (ofClass .digit)).bind
      fun whole => fractional.bind fun fraction => ret (sign ++ (whole ++ fraction))) text :
        Eff ω _) _ :=
    (signReads text).bind fun sign mid _ => (manyReads isDigit mid).bind fun whole mid _ =>
      (fractionReads mid).bind fun fraction rest _ => .ret (sign ++ (whole ++ fraction)) rest
  rw [numeralParts]
  refine parts.congr fun written rest => ?_
  constructor
  · rintro ⟨⟨negative, whole, fraction⟩, ⟨plain, ends, rfl, sign⟩, rfl⟩
    have front : Numeral.text ⟨negative, whole, fraction⟩ ++ rest =
        (if negative then ['-'] else []) ++ (whole ++ (pointed fraction ++ rest)) := by
      simp [Numeral.text, pointed]
    have digits : Span isDigit (whole ++ (pointed fraction ++ rest)) whole
        (pointed fraction ++ rest) := ⟨rfl, plain.whole, pointedStops fun _ => ends.digits⟩
    refine ⟨_, _, ⟨negative, rfl, front, ?_⟩, whole, _, digits, _, rest,
      ⟨fraction, rfl, rfl, plain.fraction, fun _ => ends.digits, ends.point⟩, ?_, rfl⟩
    · intro positive more same
      subst positive
      exact sign rfl more (front.trans same)
    · exact List.append_assoc ..
  · rintro ⟨_, _, ⟨negative, rfl, rfl, sign⟩, whole, _, ⟨rfl, all, stops⟩, _, _,
      ⟨fraction, rfl, rfl, allBehind, stopsBehind, noPoint⟩, rfl, rfl⟩
    refine ⟨⟨negative, whole, fraction⟩, ⟨⟨all, allBehind⟩, ⟨?_, noPoint⟩, ?_, ?_⟩, ?_⟩
    · by_cases empty : fraction = []
      · subst empty
        exact stops
      · exact stopsBehind empty
    · simp [Numeral.text, pointed]
    · intro positive
      subst positive
      exact sign rfl
    · exact (List.append_assoc ..).symm

theorem convertedReads (float : Text → Option Binary64) (written text : Text) :
    Reads (converted float written text : Eff ω _) fun x rest =>
      float written = some x ∧ x.isFinite = true ∧ rest = text := by
  unfold converted
  cases float written with
  | none => exact (Reads.fail text).congr fun _ _ => ⟨fun held => (nomatch held.1), False.elim⟩
  | some x =>
    change Reads ((if x.isFinite then ret x else fail : Parser Text ω _) text) _
    split
    · next finite =>
      refine (Reads.ret x text).congr fun y rest => ?_
      constructor
      · rintro ⟨same, -, rfl⟩
        cases same
        exact ⟨rfl, rfl⟩
      · rintro ⟨rfl, rfl⟩
        exact ⟨rfl, finite, rfl⟩
    · next large =>
      refine (Reads.fail text).congr fun y rest => ⟨fun held => ?_, False.elim⟩
      obtain ⟨same, finite, -⟩ := held
      cases same
      exact large finite

def NumberAt (text : Text) (x : Binary64) (rest : Text) : Prop :=
  ∃ n, NumeralAt text n rest ∧ Binary64.ofText? n.text = some x ∧ x.isFinite = true

theorem numReads (text : Text) : Reads (num text : Eff ω _) (NumberAt text) := by
  refine ((numeralReads text).bind fun written mid _ =>
    convertedReads Binary64.ofText? written mid).congr fun x rest => ?_
  constructor
  · rintro ⟨n, held, same, finite⟩
    exact ⟨n.text, rest, ⟨n, held, rfl⟩, same, finite, rfl⟩
  · rintro ⟨_, _, ⟨n, held, rfl⟩, same, finite, rfl⟩
    exact ⟨n, held, same, finite⟩

end
end ParseKit
