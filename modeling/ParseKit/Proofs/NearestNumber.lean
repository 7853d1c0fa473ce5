import ParseKit.Proofs.LongestNumeral

/-! Numbers are read by correct rounding. A numeral denotes a fraction, the sum of its digits by
their places, and is read as the number nearest to it whatever its length.
Main statement: a numeral in front of a text is refused exactly if it is too large, is otherwise
read as the nearest number with its own sign, and the reading keeps the order of the fractions. -/
namespace ParseKit

theorem startsNegative {n : Numeral} (plain : n.Plain) :
    n.negative = true ↔ ∃ digits, n.text = '-' :: digits := by
  constructor
  · intro negative
    refine ⟨n.whole ++ pointed n.fraction, ?_⟩
    simp [Numeral.text, negative, pointed]
  · rintro ⟨digits, start⟩
    cases positive : n.negative with
    | true => rfl
    | false => exact absurd start (positiveNoMinus plain positive digits)

theorem longestNumbered {text rest : Text} {n : Numeral} (longest : LongestNumeral text n rest) :
    Numbered text (n.outcome rest) := by
  obtain ⟨m, more, held⟩ := numeralExists text
  obtain ⟨rfl, rfl⟩ := longestUnique longest (numeralLongest held)
  exact numeralNumbered held

structure ReadAs (text : Text) (n : Numeral) (rest : Text) (x : Binary64) : Prop where
  longest : LongestNumeral text n rest
  given : Numbered text (.success x rest)

theorem outcomeIff {n : Numeral} {rest more : Text} {x : Binary64} :
    n.outcome rest = .success x more ↔
      n.hasDigit = true ∧ (n.rounded = x ∧ x.isFinite = true) ∧ rest = more := by
  unfold Numeral.outcome
  constructor
  · intro same
    split at same
    · next held =>
      obtain ⟨digit, finite⟩ := (Bool.and_eq_true _ _).mp held
      cases same
      exact ⟨digit, ⟨rfl, finite⟩, rfl⟩
    · cases same
  · rintro ⟨digit, ⟨rfl, finite⟩, rfl⟩
    rw [digit, finite]
    rfl

theorem numberedIff {text rest more : Text} {n : Numeral} (longest : LongestNumeral text n rest)
    (x : Binary64) : Numbered text (.success x more) ↔
      n.hasDigit = true ∧ (n.rounded = x ∧ x.isFinite = true) ∧ rest = more := by
  have numbered := longestNumbered longest
  rw [← outcomeIff]
  constructor
  · exact fun given => numbered.once given
  · exact fun same => same ▸ numbered

theorem ReadAs.conversion {text rest : Text} {n : Numeral} {x : Binary64}
    (read : ReadAs text n rest x) : n.rounded = x ∧ x.isFinite = true :=
  ((numberedIff read.longest x).mp read.given).2.1

theorem ReadAs.rounded {text rest : Text} {n : Numeral} {x : Binary64}
    (read : ReadAs text n rest x) : x.RoundedFrom n.rational ∧ x.negative = n.negative :=
  ((roundedIff n x).mp read.conversion).2

theorem ReadAs.same {text rest text' rest' : Text} {n m : Numeral} {x y : Binary64}
    (first : ReadAs text n rest x) (second : ReadAs text' m rest' y)
    (same : n.rational = m.rational) (alike : n.negative = m.negative) : x = y := by
  obtain ⟨rounded, sign⟩ := first.rounded
  obtain ⟨rounded', sign'⟩ := second.rounded
  rw [same] at rounded
  exact rounded.unique rounded' (sign.trans (alike.trans sign'.symm))

theorem signsApart {n m : Numeral} (same : n.rational = m.rational)
    (apart : n.negative ≠ m.negative) : n.rational = 0 ∧ m.rational = 0 := by
  have least (k : Numeral) : (0 : ℚ) ≤ k.numerator / k.denominator := by positivity
  have sum : |n.rational - m.rational| =
      n.numerator / n.denominator + m.numerator / m.denominator := by
    rw [rationalQuotient n, rationalQuotient m, Binary64.signedAcross apart (least n) (least m)]
  rw [same, sub_self, abs_zero] at sum
  have none : |m.rational| = 0 := by
    rw [rationalSize]
    linarith [least n, least m]
  rw [same]
  exact ⟨abs_eq_zero.mp none, abs_eq_zero.mp none⟩

theorem ReadAs.monotone {text rest text' rest' : Text} {n m : Numeral} {x y : Binary64}
    (first : ReadAs text n rest x) (second : ReadAs text' m rest' y)
    (least : n.rational ≤ m.rational) : x.value ≤ y.value := by
  rcases least.lt_or_eq with less | same
  · exact first.rounded.1.monotone second.rounded.1 less
  · by_cases alike : n.negative = m.negative
    · rw [first.same second same alike]
    · obtain ⟨none, none'⟩ := signsApart same alike
      have tiny : |(0 : ℚ)| ≤ 1 / 2 ^ 1075 := by
        rw [abs_zero]
        positivity
      rw [first.rounded.1.vanishes (by rwa [none]), second.rounded.1.vanishes (by rwa [none'])]

/-- What a numeral in front of a text is read as: a number iff it is less than half a step above the
largest, and then the nearest one. -/
structure ReadNearest (text : Text) (n : Numeral) (rest : Text) : Prop where
  accepted : (∃ x, Numbered text (.success x rest)) ↔ |n.rational| < 2 ^ 1024 - 2 ^ 970
  refused : ¬|n.rational| < 2 ^ 1024 - 2 ^ 970 → Numbered text .failure
  behind : ∀ x more, Numbered text (.success x more) → more = rest
  rounded : ∀ x, Numbered text (.success x rest) → x.RoundedFrom n.rational
  sign : ∀ x, Numbered text (.success x rest) →
    (x.negative = true ↔ ∃ digits, n.text = '-' :: digits)
  tiny : ∀ x, Numbered text (.success x rest) → |n.rational| ≤ 1 / 2 ^ 1075 → x.value = 0

theorem readNearest {text rest : Text} {n : Numeral} (longest : LongestNumeral text n rest)
    (digit : n.text.any isDigit = true) : ReadNearest text n rest := by
  rw [anyDigit longest.plain] at digit
  have accepted : (∃ x, Numbered text (.success x rest)) ↔ n.Small := by
    simp only [numberedIff longest, digit, roundedIff, true_and, and_true]
    exact ⟨fun given => given.choose_spec.1,
      fun small => ⟨n.rounded, small, roundedNearest small, roundedSign n⟩⟩
  have read {x : Binary64} (given : Numbered text (.success x rest)) : ReadAs text n rest x :=
    ⟨longest, given⟩
  refine ⟨accepted, fun beyond => ?_, fun x more given => ?_, fun x given => (read given).rounded.1,
    fun x given => ?_, fun x given tiny => (read given).rounded.1.vanishes tiny⟩
  · have outcome := longestNumbered longest
    rwa [outcomeNone longest.plain fun held => beyond held.2] at outcome
  · exact ((numberedIff longest x).mp given).2.2.symm
  · rw [(read given).rounded.2, startsNegative longest.plain]

theorem numbersAreNearest :
    (∀ {text rest : Text} {n : Numeral}, LongestNumeral text n rest →
      n.text.any isDigit = true → ReadNearest text n rest) ∧
    ∀ {text rest text' rest' : Text} {n m : Numeral} {x y : Binary64},
      ReadAs text n rest x → ReadAs text' m rest' y →
        (n.rational ≤ m.rational → x.value ≤ y.value) ∧
        (n.rational = m.rational → n.negative = m.negative → x = y) :=
  ⟨readNearest, fun first second => ⟨first.monotone second, first.same second⟩⟩

def tenth : Binary64 := ⟨0xbfb999999999999a⟩

theorem tenthIsNearest :
    LongestNumeral ['-', '0', '.', '1', '0', 'x'] ⟨true, ['0'], ['1', '0']⟩ ['x'] ∧
    tenth.RoundedFrom (-(1 / 10)) ∧
    ∀ x, Numbered ['-', '.', '1'] (.success x []) → x = tenth := by
  have first : LongestNumeral ['-', '0', '.', '1', '0', 'x'] ⟨true, ['0'], ['1', '0']⟩ ['x'] := by
    refine numeralLongest ⟨⟨?_, ?_⟩, ⟨?_, nofun⟩, rfl, nofun⟩
    · exact List.forall_mem_singleton.mpr rfl
    · exact List.forall_mem_cons.mpr ⟨rfl, List.forall_mem_singleton.mpr rfl⟩
    · rintro _ _ ⟨⟩
      rfl
  have second : LongestNumeral ['-', '.', '1'] ⟨true, [], ['1']⟩ [] :=
    numeralLongest ⟨⟨nofun, List.forall_mem_singleton.mpr rfl⟩, ⟨nofun, nofun⟩, rfl, nofun⟩
  have read : Numbered ['-', '0', '.', '1', '0', 'x'] (.success tenth ['x']) :=
    (numberedIff first _).mpr (by decide +kernel)
  have denotes : Numeral.rational ⟨true, ['0'], ['1', '0']⟩ = -(1 / 10) := by
    rw [rationalQuotient]
    change -(((10 : ℕ) : ℚ) / (100 : ℕ)) = _
    norm_num
  have denotes' : Numeral.rational ⟨true, [], ['1']⟩ = -(1 / 10) := by
    rw [rationalQuotient]
    change -(((1 : ℕ) : ℚ) / (10 : ℕ)) = _
    norm_num
  refine ⟨first, denotes ▸ (numbersAreNearest.1 first rfl).rounded _ read, fun x given => ?_⟩
  exact (numbersAreNearest.2 ⟨second, given⟩ ⟨first, read⟩).2 (denotes'.trans denotes.symm) rfl

end ParseKit
