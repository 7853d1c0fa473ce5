import ParseKit.Proofs.Numerals
import ParseKit.Proofs.NumeralValue
import ParseKit.Script.Application

/-! Numbers are read by longest match. The front of a text that is converted is the longest one
written as a numeral: a minus sign or none, digits, and a point with digits behind it or none.
Main statement: this front alone is converted, no shorter one is tried, it is given the nearest
number where it has one, and what it leaves without a number has no digit or is too large. -/
namespace ParseKit
open ParseKit.Parser

structure LongestNumeral (text : Text) (n : Numeral) (rest : Text) : Prop where
  plain : n.Plain
  joined : text = n.text ++ rest
  longest : ∀ (m : Numeral) more, m.Plain → text = m.text ++ more → m.text.length ≤ n.text.length

theorem spanFront {test : Char → Bool} {u v rest more : Text} (all : ∀ c ∈ u, test c = true)
    (stops : StopsAt test rest) (same : v ++ rest = u ++ more) :
    ∃ k, v = u ++ k ∧ more = k ++ rest := by
  induction u generalizing v with
  | nil => exact ⟨v, rfl, same.symm⟩
  | cons c u ih =>
    obtain ⟨held, others⟩ := List.forall_mem_cons.mp all
    cases v with
    | nil =>
      have stopped := stops c (u ++ more) same
      simp [held] at stopped
    | cons d v =>
      obtain ⟨rfl, tails⟩ := List.cons.inj same
      obtain ⟨k, rfl, behind⟩ := ih others tails
      exact ⟨k, rfl, behind⟩

theorem pointNotDigit {f more whole k rest : Text} (some : f ≠ [])
    (digits : ∀ c ∈ whole ++ k, isDigit c = true) (same : pointed f ++ more = k ++ rest) :
    k = [] := by
  cases k with
  | nil => rfl
  | cons c k =>
    rw [pointedSome some] at same
    obtain ⟨rfl, -⟩ := List.cons.inj same
    have digit := digits '.' (by simp)
    cases digit

theorem unsignedLongest {whole fraction rest w f more : Text}
    (digits : ∀ c ∈ whole, isDigit c = true) (stops : StopsAt isDigit rest)
    (point : fraction = [] → ∀ c more, rest = '.' :: c :: more → isDigit c = false)
    (wholeDigits : ∀ c ∈ w, isDigit c = true) (fractionDigits : ∀ c ∈ f, isDigit c = true)
    (same : whole ++ (pointed fraction ++ rest) = w ++ (pointed f ++ more)) :
    (w ++ pointed f).length ≤ (whole ++ pointed fraction).length := by
  obtain ⟨k, rfl, behind⟩ := spanFront wholeDigits (pointedStops fun _ => stops) same
  by_cases empty : f = []
  · subst empty
    simp [pointed]
  · have none := pointNotDigit empty digits behind
    subst none
    rw [pointedSome empty] at behind ⊢
    by_cases bare : fraction = []
    · subst bare
      obtain ⟨d, tail, rfl⟩ := List.exists_cons_of_ne_nil empty
      have noDigit := point rfl d (tail ++ more) behind.symm
      have digit := fractionDigits d List.mem_cons_self
      simp [digit] at noDigit
    · rw [pointedSome bare] at behind ⊢
      obtain ⟨-, tails⟩ := List.cons.inj behind
      obtain ⟨k, rfl, -⟩ := spanFront fractionDigits stops tails.symm
      simp

theorem numeralLongest {text : Text} {n : Numeral} {rest : Text} (numeral : NumeralAt text n rest) :
    LongestNumeral text n rest := by
  refine ⟨numeral.plain, numeral.joined, fun m more plain same => ?_⟩
  have both : n.text ++ rest = m.text ++ more := numeral.joined.symm.trans same
  obtain ⟨minus, whole, fraction⟩ := n
  obtain ⟨minus', w, f⟩ := m
  have unsigned : whole ++ (pointed fraction ++ rest) = w ++ (pointed f ++ more) →
      (w ++ pointed f).length ≤ (whole ++ pointed fraction).length :=
    unsignedLongest numeral.plain.whole numeral.ends.digits numeral.ends.point plain.whole
      plain.fraction
  cases minus with
  | false =>
    cases minus' with
    | false => exact unsigned (by simpa [Numeral.text, pointed] using both)
    | true => exact absurd same (numeral.sign rfl _)
  | true =>
    cases minus' with
    | true =>
      have shorter := unsigned (by simpa [Numeral.text, pointed] using both)
      simpa [Numeral.text, pointed] using shorter
    | false =>
      cases start : Numeral.text ⟨false, w, f⟩ with
      | nil => exact Nat.zero_le _
      | cons c tail =>
        rw [start] at both
        obtain ⟨rfl, -⟩ := List.cons.inj both
        exact absurd start (positiveNoMinus plain rfl tail)

theorem pointedInjective {f g : Text} (same : pointed f = pointed g) : f = g := by
  cases f <;> cases g <;> simp_all [pointed]

theorem unsignedUnique {whole fraction w f : Text} (digits : ∀ c ∈ whole, isDigit c = true)
    (wholeDigits : ∀ c ∈ w, isDigit c = true) (same : whole ++ pointed fraction = w ++ pointed f) :
    whole = w ∧ fraction = f := by
  have stops : StopsAt isDigit (pointed fraction) := by
    have ends : StopsAt isDigit (pointed fraction ++ []) := pointedStops fun _ => nofun
    simpa using ends
  obtain ⟨k, rfl, behind⟩ := spanFront wholeDigits stops same
  have none : k = [] := by
    by_cases empty : f = []
    · subst empty
      exact (List.append_eq_nil_iff.mp behind.symm).1
    · have behind : pointed f ++ [] = k ++ pointed fraction := by simpa using behind
      exact pointNotDigit empty digits behind
  subst none
  exact ⟨List.append_nil w, pointedInjective behind.symm⟩

theorem plainUnique {n m : Numeral} (plain : n.Plain) (plain' : m.Plain) (same : n.text = m.text) :
    n = m := by
  obtain ⟨minus, whole, fraction⟩ := n
  obtain ⟨minus', w, f⟩ := m
  have unsigned : whole ++ pointed fraction = w ++ pointed f → whole = w ∧ fraction = f :=
    unsignedUnique plain.whole plain'.whole
  cases minus with
  | false =>
    cases minus' with
    | false =>
      obtain ⟨rfl, rfl⟩ := unsigned (by simpa [Numeral.text, pointed] using same)
      rfl
    | true => exact absurd same (positiveNoMinus plain rfl _)
  | true =>
    cases minus' with
    | true =>
      obtain ⟨rfl, rfl⟩ := unsigned (by simpa [Numeral.text, pointed] using same)
      rfl
    | false => exact absurd same.symm (positiveNoMinus plain' rfl _)

theorem longestUnique {text : Text} {n m : Numeral} {rest more : Text}
    (first : LongestNumeral text n rest) (second : LongestNumeral text m more) :
    m = n ∧ more = rest := by
  have shorter := first.longest m more second.plain second.joined
  have longer := second.longest n rest first.plain first.joined
  have same : m.text ++ more = n.text ++ rest := second.joined.symm.trans first.joined
  obtain ⟨texts, rests⟩ := List.append_inj same (Nat.le_antisymm shorter longer)
  exact ⟨plainUnique second.plain first.plain texts, rests⟩

theorem anyDigit {n : Numeral} (plain : n.Plain) : n.text.any isDigit = n.hasDigit := by
  obtain ⟨minus, whole, fraction⟩ := n
  cases whole with
  | cons c whole =>
    have digit : isDigit c = true := plain.whole c List.mem_cons_self
    simp [Numeral.text, Numeral.hasDigit, digit]
  | nil =>
    cases fraction with
    | cons c fraction =>
      have digit : isDigit c = true := plain.fraction c List.mem_cons_self
      simp [Numeral.text, Numeral.hasDigit, digit]
    | nil => cases minus <;> rfl

theorem noDigitIff {n : Numeral} (plain : n.Plain) :
    n.text.any isDigit = false ↔ n.text = [] ∨ n.text = ['-'] := by
  constructor
  · intro none
    obtain ⟨minus, whole, fraction⟩ := n
    rw [anyDigit plain] at none
    cases whole <;> cases fraction <;> simp [Numeral.hasDigit] at none
    cases minus
    · exact .inl rfl
    · exact .inr rfl
  · intro bare
    rcases bare with empty | minus
    · rw [empty]
      rfl
    · rw [minus]
      rfl

section
variable {ω α β : Type}

theorem bindTakes {p : Parser Text ω α} {text mid : Text} {v : α}
    (first : p text = pure (.success v mid)) (f : α → Parser Text ω β) :
    (p.bind f) text = f v mid := by
  unfold Parser.bind
  rw [first]
  rfl

theorem optionTakes (default : α) {p : Parser Text ω α} {text : Text} {reading : α → Text → Prop}
    (reads : Reads (p text) reading) :
    ∃ v rest, (option default p) text = pure (.success v rest) := by
  unfold option alt
  cases reads with
  | fits v rest same only => exact ⟨v, rest, by rw [same]; rfl⟩
  | fails same none => exact ⟨default, text, by rw [same]; rfl⟩

theorem spanTakes (test : Char → Bool) (text : Text) :
    ∃ v rest, (many (sat test) text : Eff ω _) = pure (.success v rest) := by
  cases (manyReads test text : Reads (many (sat test) text : Eff ω _) _) with
  | fits v rest same only => exact ⟨v, rest, same⟩
  | fails same none =>
    obtain ⟨v, rest, span⟩ := spanExists test text
    exact absurd span (none v rest)

end

theorem numeralExists (text : Text) : ∃ n rest, NumeralAt text n rest := by
  obtain ⟨sign, afterSign, first⟩ : ∃ v rest,
      (option [] (single (char '-')) text : Eff Unit _) = pure (.success v rest) :=
    optionTakes [] (singleReads _ text)
  obtain ⟨whole, afterWhole, digits⟩ : ∃ v rest,
      (many (sat isDigit) afterSign : Eff Unit _) = pure (.success v rest) :=
    spanTakes isDigit afterSign
  obtain ⟨fraction, rest, behind⟩ : ∃ v rest,
      (fractional afterWhole : Eff Unit _) = pure (.success v rest) := optionTakes []
    ((singleReads _ afterWhole).bind fun dot mid _ =>
      (many1Reads isDigit mid).bind fun more rest _ => .ret (dot ++ more) rest)
  have taken : (numeral text : Eff Unit _) =
      pure (.success (sign ++ (whole ++ fraction)) rest) := by
    rw [numeralParts]
    exact (bindTakes first _).trans ((bindTakes digits _).trans (bindTakes behind _))
  obtain ⟨n, held, -⟩ := ((numeralReads text).gives _ rest ()).mp (congrFun taken ())
  exact ⟨n, rest, held⟩

theorem numeralTakes {ω : Type} {text : Text} {n : Numeral} {rest : Text}
    (held : NumeralAt text n rest) : (numeral text : Eff ω _) = pure (.success n.text rest) := by
  cases (numeralReads text : Reads (numeral text : Eff ω _) _) with
  | fits v more same only =>
    obtain ⟨rfl, rfl⟩ := (only n.text rest).mp ⟨n, held, rfl⟩
    exact same
  | fails same none => exact absurd ⟨n, held, rfl⟩ (none n.text rest)

theorem numByTakes {ω : Type} {text rest : Text} {n : Numeral} (held : NumeralAt text n rest)
    (float : Text → Option Binary64) :
    (numBy float text : Eff ω _) = converted float n.text rest := bindTakes (numeralTakes held) _

def Numeral.outcome (n : Numeral) (rest : Text) : Outcome Text Binary64 :=
  if n.hasDigit && n.rounded.isFinite then .success n.rounded rest else .failure

theorem numConverts {ω : Type} {text rest : Text} {n : Numeral} (held : NumeralAt text n rest) :
    (num text : Eff ω _) = pure (n.outcome rest) := by
  refine (numByTakes held _).trans ?_
  unfold converted Numeral.outcome
  rw [floatPlain held.plain]
  cases n.hasDigit with
  | false => rfl
  | true => cases finite : n.rounded.isFinite <;> simp [finite] <;> rfl

def Script.Value.ofNumber : Outcome Text Binary64 → Script.Value
  | .failure => .failure
  | .success x rest => .success (.float x) (.str rest)

theorem scriptConverts {text : Text} {o : Outcome Text Binary64}
    (run : (num text : Eff Script.Store _) = pure o) (limit : Nat) :
    Script.apply (limit + 1) Script.Atom.num.value (.str text) = pure (.ofNumber o) := by
  change (num text >>= _) >>= _ = _
  rw [run]
  cases o <;> rfl

def Numbered (text : Text) (o : Outcome Text Binary64) : Prop :=
  (∀ ω, (num text : Eff ω _) = pure o) ∧ ∀ limit w,
    Script.apply (limit + 1) Script.Atom.num.value (.str text) w = (.done (.ofNumber o), w)

theorem Numbered.once {text : Text} {o o' : Outcome Text Binary64} (first : Numbered text o)
    (second : Numbered text o') : o = o' := by
  have same : (pure o : Eff Unit _) = pure o' := (first.1 Unit).symm.trans (second.1 Unit)
  cases congrFun same ()
  rfl

theorem numeralNumbered {text rest : Text} {n : Numeral} (held : NumeralAt text n rest) :
    Numbered text (n.outcome rest) :=
  ⟨fun _ => numConverts held, fun limit w => congrFun (scriptConverts (numConverts held) limit) w⟩

theorem outcomeSome {n : Numeral} {rest : Text} (plain : n.Plain)
    (digit : n.text.any isDigit = true) (small : n.Small) :
    n.outcome rest = .success n.rounded rest := by
  rw [anyDigit plain] at digit
  rw [Numeral.outcome, digit, (roundedFinite n).mpr small]
  rfl

theorem outcomeNone {n : Numeral} {rest : Text} (plain : n.Plain)
    (refused : ¬(n.text.any isDigit = true ∧ n.Small)) : n.outcome rest = .failure := by
  rw [anyDigit plain, ← roundedFinite] at refused
  rw [Numeral.outcome, if_neg]
  rwa [Bool.and_eq_true]

theorem floatRefuses {n : Numeral} (plain : n.Plain) :
    Binary64.ofText? n.text = none ↔ n.text = [] ∨ n.text = ['-'] := by
  rw [← noDigitIff plain, anyDigit plain, floatPlain plain]
  cases n.hasDigit <;> simp

theorem numTakesLongest (text : Text) : ∃ n rest, LongestNumeral text n rest ∧
    (∀ m more, LongestNumeral text m more → m = n ∧ more = rest) ∧
    (∀ c ∈ n.text, startsLiteral c = true) ∧
    (∀ ω float, (numBy float text : Eff ω _) = converted float n.text rest) ∧
    (Binary64.ofText? n.text = none ↔ n.text = [] ∨ n.text = ['-']) ∧
    (n.text.any isDigit = false ↔ n.text = [] ∨ n.text = ['-']) ∧
    (n.text.any isDigit = true ∧ |n.rational| < 2 ^ 1024 - 2 ^ 970 →
      ∃ x : Binary64, x.RoundedFrom n.rational ∧ x.negative = n.negative ∧
        Binary64.ofText? n.text = some x ∧ Numbered text (.success x rest)) ∧
    (¬(n.text.any isDigit = true ∧ |n.rational| < 2 ^ 1024 - 2 ^ 970) →
      Numbered text .failure) := by
  obtain ⟨n, rest, held⟩ := numeralExists text
  have longest := numeralLongest held
  have numbered := numeralNumbered held
  refine ⟨n, rest, longest, fun m more other => longestUnique longest other,
    numeralCharacters held.plain, fun ω float => numByTakes held float, floatRefuses held.plain,
    noDigitIff held.plain, fun accepted => ?_, fun refused => ?_⟩
  · rw [outcomeSome held.plain accepted.1 accepted.2] at numbered
    refine ⟨n.rounded, roundedNearest accepted.2, roundedSign n, ?_, numbered⟩
    exact (floatPlainIff held.plain _).mpr ⟨(anyDigit held.plain).symm.trans accepted.1, rfl⟩
  · rwa [outcomeNone held.plain refused] at numbered

theorem signedNumeralRead : ∃ x : Binary64, x.RoundedFrom (-(25 / 2)) ∧
    Numbered ['-', '1', '2', '.', '5', 'x'] (.success x ['x']) := by
  have digits : ∀ c ∈ ['1', '2'], isDigit c = true :=
    List.forall_mem_cons.mpr ⟨rfl, List.forall_mem_singleton.mpr rfl⟩
  have first : LongestNumeral ['-', '1', '2', '.', '5', 'x'] ⟨true, ['1', '2'], ['5']⟩ ['x'] := by
    refine numeralLongest ⟨⟨digits, List.forall_mem_singleton.mpr rfl⟩, ⟨?_, nofun⟩, rfl, nofun⟩
    rintro _ _ ⟨⟩
    rfl
  have denotes : Numeral.rational ⟨true, ['1', '2'], ['5']⟩ = -(25 / 2) := by
    rw [rationalQuotient]
    change -(((125 : ℕ) : ℚ) / (10 : ℕ)) = _
    norm_num
  obtain ⟨n, rest, -, only, -, -, -, -, accepted, -⟩ :=
    numTakesLongest ['-', '1', '2', '.', '5', 'x']
  obtain ⟨rfl, rfl⟩ := only _ _ first
  rw [denotes] at accepted
  obtain ⟨x, rounded, -, -, numbered⟩ := accepted ⟨rfl, boundAbove (by norm_num)⟩
  exact ⟨x, rounded, numbered⟩

end ParseKit
