import ParseKit.Proofs.LongestNumeral

/-! The grammar of descriptors, said without a parser: names, literals and blanks put one
behind the other. Main statement: reading token by token, each as far as it goes, finds what the
grammar generates and nothing else. -/
namespace ParseKit

structure Descriptor where
  name : Text
  arguments : List Binary64

abbrev isBlank : Char → Bool := CharClass.space.holds

def Blank (text : Text) : Prop := ∀ c ∈ text, isBlank c = true

inductive IsName : Text → Prop where
  | mk {c more} (first : CharClass.letter.holds c = true)
      (others : ∀ d ∈ more, CharClass.word.holds d = true) : IsName (c :: more)

/- A numeral with a digit, not too large, and the number that is nearest to what it denotes. -/
def Denotes (text : Text) (x : Binary64) : Prop :=
  ∃ n : Numeral, n.Plain ∧ n.text = text ∧ text.any isDigit = true ∧
    |n.rational| < 2 ^ 1024 - 2 ^ 970 ∧ x.RoundedFrom n.rational ∧ x.negative = n.negative

inductive Arguments : Text → List Binary64 → Prop where
  | last {l u x} (literal : Denotes l x) (behind : Blank u) : Arguments (l ++ u) [x]
  | more {l u v body x xs} (literal : Denotes l x) (behind : Blank u) (front : Blank v)
      (others : Arguments body xs) : Arguments (l ++ u ++ ',' :: v ++ body) (x :: xs)

inductive Body : Text → List Binary64 → Prop where
  | none : Body [] []
  | some {body xs} (arguments : Arguments body xs) : Body body xs

inductive Spelled : Text → Descriptor → Text → Prop where
  | mk {w₀ name w₁ w₂ body args w₃ rest} (front : Blank w₀) (isName : IsName name)
      (behindName : Blank w₁) (inside : Blank w₂) (arguments : Body body args)
      (behind : Blank w₃) (stops : StopsAt isBlank rest) :
      Spelled (w₀ ++ name ++ w₁ ++ '(' :: w₂ ++ body ++ ')' :: w₃ ++ rest) ⟨name, args⟩ rest

theorem literalConverts {n : Numeral} (plain : n.Plain) (x : Binary64) :
    (Binary64.ofText? n.text = some x ∧ x.isFinite = true) ↔ n.text.any isDigit = true ∧
      |n.rational| < 2 ^ 1024 - 2 ^ 970 ∧ x.RoundedFrom n.rational ∧ x.negative = n.negative := by
  rw [floatPlainIff plain, and_assoc, roundedIff, anyDigit plain]
  rfl

def Token {α : Type} (reading : Text → α → Text → Prop) (text : Text) (v : α) (rest : Text) : Prop :=
  ∃ mid blanks, reading text v mid ∧ Span isBlank mid blanks rest

def CharAt (c : Char) (text : Text) (d : Char) (rest : Text) : Prop :=
  text = d :: rest ∧ (d == c) = true

def NameAt (text name rest : Text) : Prop :=
  IsName name ∧ text = name ++ rest ∧ StopsAt CharClass.word.holds rest

def Further (text : Text) (x : Binary64) (rest : Text) : Prop :=
  ∃ c mid, Token (CharAt ',') text c mid ∧ Token NumberAt mid x rest

def NumbersAt (text : Text) (args : List Binary64) (rest : Text) : Prop :=
  ∃ x xs mid, Token NumberAt text x mid ∧ Many Further mid xs rest ∧ args = x :: xs

def ListAt (text : Text) (args : List Binary64) (rest : Text) : Prop :=
  NumbersAt text args rest ∨ (∀ xs more, ¬ NumbersAt text xs more) ∧ args = [] ∧ rest = text

def NoLonger {α : Type} (reading : Text → α → Text → Prop) : Prop :=
  ∀ ⦃text v rest⦄, reading text v rest → rest.length ≤ text.length

theorem spanLength (test : Char → Bool) : NoLonger (Span test) := fun text v rest span => by
  rw [span.joined, List.length_append]
  omega

theorem tokenLength {α : Type} {reading : Text → α → Text → Prop} (each : NoLonger reading) :
    NoLonger (Token reading) := fun _ _ _ ⟨_, _, held, span⟩ =>
  (spanLength isBlank span).trans (each held)

theorem numberLength : NoLonger NumberAt := fun text x rest ⟨n, numeral, _⟩ => by
  rw [numeral.joined, List.length_append]
  omega

theorem nameLength : NoLonger NameAt := fun text name rest ⟨_, joined, _⟩ => by
  rw [joined, List.length_append]
  omega

theorem charShorter {c d : Char} {text rest : Text} (char : CharAt c text d rest) :
    rest.length < text.length := by
  rw [char.1]
  exact Nat.lt_succ_self rest.length

theorem charLength (c : Char) : NoLonger (CharAt c) := fun _ _ _ char => (charShorter char).le

theorem furtherShrinks {text : Text} {x : Binary64} {rest : Text} (further : Further text x rest) :
    rest.length < text.length := by
  obtain ⟨c, mid, ⟨behind, blanks, char, span⟩, number⟩ := further
  calc rest.length ≤ mid.length := tokenLength numberLength number
    _ ≤ behind.length := spanLength isBlank span
    _ < text.length := charShorter char

theorem manyLength {α : Type} {reading : Text → α → Text → Prop} (each : NoLonger reading) :
    NoLonger (Many reading) := fun _ _ _ many => by
  induction many with
  | done none => exact Nat.le_refl _
  | more first tail ih => exact ih.trans (each first)

theorem listLength : NoLonger ListAt := by
  rintro text args rest (⟨x, xs, mid, number, many, -⟩ | ⟨-, -, rfl⟩)
  · have furthers := manyLength (fun _ _ _ further => (furtherShrinks further).le) many
    exact furthers.trans (tokenLength numberLength number)
  · exact Nat.le_refl _

def DescriptorAt (text : Text) (d : Descriptor) (rest : Text) : Prop :=
  ∃ w₀ t₀ t₁ c t₂ t₃ c', Span isBlank text w₀ t₀ ∧ Token NameAt t₀ d.name t₁ ∧
    Token (CharAt '(') t₁ c t₂ ∧ ListAt t₂ d.arguments t₃ ∧ Token (CharAt ')') t₃ c' rest

theorem charSound {c d : Char} {text rest : Text} (token : Token (CharAt c) text d rest) :
    ∃ u, Blank u ∧ StopsAt isBlank rest ∧ text = c :: u ++ rest := by
  obtain ⟨mid, u, ⟨rfl, same⟩, rfl, all, stops⟩ := token
  exact ⟨u, all, stops, congrArg (· :: _) (beq_iff_eq.mp same)⟩

theorem numberSound {text : Text} {x : Binary64} {rest : Text}
    (token : Token NumberAt text x rest) :
    ∃ l u, Denotes l x ∧ Blank u ∧ text = l ++ u ++ rest := by
  obtain ⟨mid, u, ⟨n, numeral, finite⟩, rfl, all, -⟩ := token
  have joined := numeral.joined.trans (List.append_assoc ..).symm
  have converts := (literalConverts numeral.plain x).mp finite
  exact ⟨n.text, u, ⟨n, numeral.plain, rfl, converts⟩, all, joined⟩

theorem furtherSound {text : Text} {xs : List Binary64} {rest : Text}
    (many : Many Further text xs rest) {l u : Text} {x : Binary64} (literal : Denotes l x)
    (behind : Blank u) : ∃ body, Arguments body (x :: xs) ∧ l ++ u ++ text = body ++ rest := by
  induction many generalizing l u x with
  | done => exact ⟨l ++ u, .last literal behind, rfl⟩
  | more first tail ih =>
    obtain ⟨c, mid, comma, number⟩ := first
    obtain ⟨v, front, -, rfl⟩ := charSound comma
    obtain ⟨l', u', literal', behind', rfl⟩ := numberSound number
    obtain ⟨body, arguments, joined⟩ := ih literal' behind'
    refine ⟨_, .more literal behind front arguments, ?_⟩
    simp [joined]

theorem listSound {text : Text} {args : List Binary64} {rest : Text} (list : ListAt text args rest) :
    ∃ body, Body body args ∧ text = body ++ rest := by
  rcases list with ⟨x, xs, mid, number, many, rfl⟩ | ⟨-, rfl, rfl⟩
  · obtain ⟨l, u, literal, behind, rfl⟩ := numberSound number
    obtain ⟨body, arguments, joined⟩ := furtherSound many literal behind
    exact ⟨body, .some arguments, joined⟩
  · exact ⟨[], .none, rfl⟩

theorem descriptorSound {text : Text} {d : Descriptor} {rest : Text}
    (reads : DescriptorAt text d rest) : Spelled text d rest := by
  obtain ⟨name, args⟩ := d
  obtain ⟨w₀, _, _, c, _, _, c', ⟨rfl, front, -⟩, ⟨_, w₁, ⟨isName, rfl, -⟩, rfl, behindName, -⟩,
    opening, list, closing⟩ := reads
  obtain ⟨w₂, inside, -, rfl⟩ := charSound opening
  obtain ⟨body, arguments, rfl⟩ := listSound list
  obtain ⟨w₃, behind, stops, rfl⟩ := charSound closing
  have spells := Spelled.mk front isName behindName inside arguments behind stops
  simp only [List.append_assoc, List.cons_append] at spells ⊢
  exact spells

theorem blankNot {test : Char → Bool} (disjoint : CharClass.blanks.all (fun c => !test c) = true)
    {c : Char} (blank : isBlank c = true) : test c = false := by
  have apart := List.all_eq_true.mp disjoint c (List.contains_iff_mem.mp blank)
  exact Bool.not_eq_true' _ ▸ apart

theorem stopsBlank {test : Char → Bool} (disjoint : CharClass.blanks.all (fun c => !test c) = true)
    {c : Char} (held : test c = true) (rest : Text) : StopsAt isBlank (c :: rest) := by
  intro d more same
  cases same
  cases blank : isBlank c with
  | false => rfl
  | true => exact absurd (held.symm.trans (blankNot disjoint blank)) nofun

theorem blanksStop {test : Char → Bool} (disjoint : CharClass.blanks.all (fun c => !test c) = true)
    {w rest : Text} (blank : Blank w) (stops : StopsAt test rest) : StopsAt test (w ++ rest) := by
  cases w with
  | nil => exact stops
  | cons c w =>
    intro d more same
    cases same
    exact blankNot disjoint (blank c List.mem_cons_self)

theorem literalStart {l : Text} {x : Binary64} (literal : Denotes l x) :
    ∃ c more, l = c :: more ∧ startsLiteral c = true := by
  obtain ⟨n, plain, rfl, digit, -⟩ := literal
  exact digitStarts plain (anyDigit plain ▸ digit)

theorem numberComplete {l u : Text} {x : Binary64} (literal : Denotes l x) (behind : Blank u)
    {c : Char} (mark : c = ',' ∨ c = ')') (more : Text) :
    Token NumberAt (l ++ u ++ c :: more) x (c :: more) := by
  have stops : ∀ {test : Char → Bool}, test ',' = false → test ')' = false →
      StopsAt test (c :: more) := by
    intro test comma closing d rest same
    cases same
    rcases mark with rfl | rfl
    · exact comma
    · exact closing
  obtain ⟨c', tail, start, -⟩ := literalStart literal
  obtain ⟨n, plain, rfl, converts⟩ := literal
  have digits : StopsAt isDigit (u ++ c :: more) := blanksStop rfl behind (stops rfl rfl)
  have noPoint : StopsAt (· == '.') (u ++ c :: more) := blanksStop rfl behind (stops rfl rfl)
  have ends : n.Ends (u ++ c :: more) :=
    ⟨digits, fun _ d rest same => nomatch noPoint '.' (d :: rest) same⟩
  have numeral : NumeralAt (n.text ++ u ++ c :: more) n (u ++ c :: more) := by
    rw [List.append_assoc]
    refine ⟨plain, ends, rfl, fun positive more same => ?_⟩
    rw [start] at same
    obtain ⟨rfl, -⟩ := List.cons.inj same
    exact positiveNoMinus plain positive tail start
  have finite := (literalConverts plain x).mpr converts
  exact ⟨_, u, ⟨n, numeral, finite⟩, rfl, behind, stops rfl rfl⟩

theorem charComplete (c : Char) {u rest : Text} (behind : Blank u) (stops : StopsAt isBlank rest) :
    Token (CharAt c) (c :: u ++ rest) c rest :=
  ⟨u ++ rest, u, ⟨rfl, beq_self_eq_true c⟩, rfl, behind, stops⟩

theorem argumentsStop {body : Text} {xs : List Binary64} (arguments : Arguments body xs)
    (rest : Text) : StopsAt isBlank (body ++ rest) := by
  cases arguments with
  | last literal _ =>
    obtain ⟨c, more, rfl, start⟩ := literalStart literal
    exact stopsBlank rfl start _
  | more literal _ _ _ =>
    obtain ⟨c, more, rfl, start⟩ := literalStart literal
    exact stopsBlank rfl start _

theorem argumentsComplete {body : Text} {xs : List Binary64} (arguments : Arguments body xs)
    (more : Text) : NumbersAt (body ++ ')' :: more) xs (')' :: more) := by
  induction arguments with
  | @last l u x literal behind =>
    have none : ∀ y rest, ¬ Further (')' :: more) y rest := by
      intro y rest further
      obtain ⟨c, mid, ⟨_, _, ⟨same, comma⟩, _⟩, _⟩ := further
      cases same
      cases comma
    exact ⟨x, [], _, numberComplete literal behind (.inr rfl) more, .done none, rfl⟩
  | @more l u v body x xs literal behind front others ih =>
    obtain ⟨y, ys, mid, number, many, rfl⟩ := ih
    have first := numberComplete literal behind (.inl rfl) (v ++ (body ++ ')' :: more))
    have comma := charComplete ',' front (argumentsStop others (')' :: more))
    refine ⟨x, y :: ys, _, ?_, .more ⟨',', _, comma, number⟩ many, rfl⟩
    simp only [List.append_assoc, List.cons_append] at first ⊢
    exact first

theorem bodyComplete {body : Text} {args : List Binary64} (arguments : Body body args)
    (more : Text) : ListAt (body ++ ')' :: more) args (')' :: more) := by
  cases arguments with
  | some arguments => exact .inl (argumentsComplete arguments more)
  | none =>
    have none : ∀ xs rest, ¬ NumbersAt (')' :: more) xs rest := by
      intro xs rest numbers
      obtain ⟨x, ys, mid, number, -, -⟩ := numbers
      obtain ⟨l, u, literal, -, joined⟩ := numberSound number
      obtain ⟨c, tail, rfl, start⟩ := literalStart literal
      cases joined
      cases start
    exact .inr ⟨none, rfl, rfl⟩

theorem bodyStops {body : Text} {args : List Binary64} (arguments : Body body args)
    (more : Text) : StopsAt isBlank (body ++ ')' :: more) := by
  cases arguments with
  | some arguments => exact argumentsStop arguments (')' :: more)
  | none =>
    intro c rest same
    cases same
    rfl

theorem descriptorComplete {text : Text} {d : Descriptor} {rest : Text}
    (spells : Spelled text d rest) : DescriptorAt text d rest := by
  obtain @⟨w₀, name, w₁, w₂, body, args, w₃, rest, front, isName, behindName, inside, arguments,
    behind, stops⟩ := spells
  have opened : ∀ {test : Char → Bool} {more : Text}, test '(' = false → StopsAt test ('(' :: more) := by
    intro test more apart c rest same
    cases same
    exact apart
  have named : StopsAt isBlank (name ++ (w₁ ++ ('(' :: w₂ ++ (body ++ (')' :: w₃ ++ rest))))) := by
    obtain ⟨first, _⟩ := isName
    exact stopsBlank rfl first _
  have name : Token NameAt (name ++ (w₁ ++ ('(' :: w₂ ++ (body ++ (')' :: w₃ ++ rest))))) name
      ('(' :: w₂ ++ (body ++ (')' :: w₃ ++ rest))) :=
    ⟨_, w₁, ⟨isName, rfl, blanksStop rfl behindName (opened rfl)⟩, rfl, behindName, opened rfl⟩
  have opening := charComplete '(' inside (bodyStops arguments (w₃ ++ rest))
  have closing := charComplete ')' behind stops
  refine ⟨w₀, _, _, '(', _, _, ')', ⟨?_, front, named⟩, name, opening,
    bodyComplete arguments (w₃ ++ rest), closing⟩
  simp only [List.append_assoc, List.cons_append]

theorem tokensSpell (text : Text) (d : Descriptor) (rest : Text) :
    DescriptorAt text d rest ↔ Spelled text d rest := ⟨descriptorSound, descriptorComplete⟩

end ParseKit
