import ParseKit.Proofs.Block.Finding
import ParseKit.Proofs.DescriptorGrammar
import ParseKit.Proofs.Recursion
import ParseKit.Script.DescriptorPart

/-! Descriptors are read by blocks, one for a token with the blanks behind it, one for a name and
one for the whole. Main statement: the block accepts what the grammar generates and nothing else,
with the values the grammar gives, and a parse of a whole text says of each other text why it has
none. -/
namespace ParseKit
open Script

def Descriptor.value (d : Descriptor) : Value :=
  .tuple [.str d.name, .list (d.arguments.map fun (x : Binary64) => .float x)]

namespace Script

theorem classWithin (k : CharClass) : ReadsWithin 1 (Atom.ofClass k).value Value.ofChar
    fun text c rest => text = c :: rest ∧ k.holds c = true :=
  .ofGiven (fun _ => rfl) fun text _ _ => .ofReads (Reads.sat k.holds text) _ (ofClass k)

def ofFloat (x : Binary64) : Value := .float x

theorem numWithin : ReadsWithin 1 Atom.num.value ofFloat NumberAt :=
  .ofGiven (q := num) (fun _ => rfl) fun text limit _ =>
    .ofReads (numReads text) _ (elementNum limit)

theorem charWithin (mark : Mark) (c : Char) :
    ReadsWithin 1 (.parser mark (.char (.str [c]))) Value.ofChar (CharAt c) :=
  .ofGiven (fun _ => rfl) fun text _ _ => by
    refine (Finds.ofReads (Reads.sat [c].contains text) _ (elementEqual (.str [c]))).congr ?_
    simp [CharAt]

theorem joinChars (v : Text) : Finishes (joinTexts (v.map Value.ofChar)) (· = .str v) := by
  have texts : ∀ u ∈ v.map Value.ofChar, u.IsText := fun u member => by
    obtain ⟨c, -, rfl⟩ := List.mem_map.mp member
    exact ⟨[c], rfl⟩
  have joined : ((v.map Value.ofChar).map Value.plain).flatten = v := by
    rw [List.map_map]
    exact List.flatMap_singleton' v
  unfold joinTexts
  rw [allTextsPlain 0 texts]
  exact .done (congrArg Value.str joined)

theorem runWithin (mark : Mark) (k : CharClass) :
    ReadsWithin 2 (.parser mark (.repeated 0 .joined (Atom.ofClass k).value)) .str
      (Span k.holds) := by
  refine .ofGiven (fun _ => rfl) fun text limit ample => ?_
  have each (front : Text) (small : front.length ≤ text.length) :
      Finds Value.ofChar _ (read (apply limit) (Atom.ofClass k).value (.str front)) :=
    (classWithin k).read (by omega)
  have chars := Finds.repeated each (satShrinks k.holds) (by omega : text.length ≤ limit)
    (Nat.le_refl _) 0
  refine (chars.mapM joinChars).congr fun v rest => ?_
  exact ⟨fun span => ⟨manySpan.mpr span, Nat.zero_le _⟩, fun held => manySpan.mp held.1⟩

theorem spacesEvaluate (limit : Nat) (env : Env) :
    Finishes (eval limit env (.atom .spaces)) fun v =>
      v.isCallable = true ∧ ReadsWithin 2 v .str (Span isBlank) :=
  .done ⟨rfl, runWithin _ .space⟩

def token (mark : Mark) (p : Value) : Value := .parser mark (.block [("p", p)] lexemeBlock)

theorem tokenWithin {α : Type} {steps : Nat} {p : Value} {value : α → Value}
    {reading : Text → α → Text → Prop} (callable : p.isCallable = true)
    (reads : ReadsWithin steps p value reading) (enough : 4 ≤ steps)
    (shorter : NoLonger reading) (mark : Mark) :
    ReadsWithin (steps + 1) (token mark p) value (Token reading) := by
  refine blockWithin 4 mark (fun text n ample => ?_) enough
  have parts : Finds value (fun u rest => ∃ v mid, reading text v mid ∧
      ∃ blanks left, Span isBlank mid blanks left ∧ u = v ∧ rest = left)
        (blockFrom (n + 4) (n + 4) [("p", p)] lexemeBlock (.str text)) := by
    refine blockReads rfl (.done ⟨callable, reads⟩) ample fun v mid held => ?_
    have le := shorter held
    refine blockReads rfl (spacesEvaluate _ _) (by omega) fun blanks left span => ?_
    exact blockReturns rfl (.done rfl)
  refine parts.congr fun v rest => ?_
  constructor
  · rintro ⟨mid, blanks, held, span⟩
    exact ⟨v, mid, held, blanks, rest, span, rfl, rfl⟩
  · rintro ⟨_, mid, held, blanks, _, span, rfl, rfl⟩
    exact ⟨mid, blanks, held, span⟩

theorem identifierWithin (mark : Mark) (env : Env) :
    ReadsWithin 5 (.parser mark (.block env identifierBlock)) .str NameAt := by
  refine blockWithin 4 mark (fun text n ample => ?_) (Nat.le_refl _)
  have letter (env : Env) : Finishes (eval (n + 4) env (.atom (.ofClass .letter))) fun v =>
      v.isCallable = true ∧ ReadsWithin 1 v Value.ofChar
        fun text c rest => text = c :: rest ∧ CharClass.letter.holds c = true :=
    .done ⟨rfl, classWithin .letter⟩
  have words (env : Env) : Finishes (eval (n + 4) env (.unary .manyText (.atom (.ofClass .word))))
      fun v => v.isCallable = true ∧ ReadsWithin 2 v .str (Span CharClass.word.holds) := by
    change Finishes (Run.make (.parser (.repeated 0 .joined (Atom.ofClass .word).value))) _
    refine (Finishes.make _).imp ?_
    rintro _ ⟨mark, rfl⟩
    exact ⟨rfl, runWithin mark .word⟩
  have parts : Finds Value.str (fun u rest => ∃ c mid,
      (text = c :: mid ∧ CharClass.letter.holds c = true) ∧
        ∃ more left, Span CharClass.word.holds mid more left ∧ u = c :: more ∧ rest = left)
      (blockFrom (n + 4) (n + 4) env identifierBlock (.str text)) := by
    refine blockReads rfl (letter env) (by omega) fun c mid held => ?_
    have le : mid.length + 1 = text.length := congrArg List.length held.1.symm
    refine blockReads rfl (words _) (by omega) fun more left span => blockReturns rfl ?_
    simp only [eval, evalWith, evalAllWith, evalNamedWith, Env.receive, Env.findSet]
    exact .done rfl
  refine parts.congr fun name rest => ?_
  constructor
  · rintro ⟨isName, rfl, stops⟩
    obtain @⟨c, more, first, others⟩ := isName
    exact ⟨c, more ++ rest, ⟨rfl, first⟩, more, rest, ⟨rfl, others, stops⟩, rfl, rfl⟩
  · rintro ⟨c, _, ⟨rfl, first⟩, more, _, ⟨rfl, all, stops⟩, rfl, rfl⟩
    exact ⟨.mk first all, rfl, stops⟩

def BindsLexeme (env : Env) : Prop :=
  ∃ name, env.find? "lexeme" = some (.blockFn name ["p"] lexemeBlock [])

def symbolBody : Expr := lexeme (.unary .char (.var "c"))

structure Grammatical (env : Env) : Prop where
  lexeme : BindsLexeme env
  symbol : ∃ name own, env.find? "symbol" = some (.lambda name ["c"] symbolBody own) ∧
    BindsLexeme own

theorem Grammatical.set {env : Env} (bound : Grammatical env) {x : String} (v : Value)
    (other : x ≠ "lexeme" ∧ x ≠ "symbol") : Grammatical (env.set x v) := by
  obtain ⟨lexeme, symbol⟩ := bound
  constructor
  · rwa [BindsLexeme, Env.findSet, if_neg other.1.symm]
  · rwa [Env.findSet, if_neg other.2.symm]

theorem lexemeEvaluates {n : Nat} {env : Env} {e : Expr} {yields : Value → Prop}
    (bound : BindsLexeme env) (inner : Finishes (eval (n + 1) env e) yields) :
    Finishes (eval (n + 1) env (lexeme e)) fun v => ∃ p mark, yields p ∧ v = token mark p := by
  obtain ⟨name, found⟩ := bound
  simp only [lexeme, eval, evalWith, evalAllWith, evalNamedWith, found, pure_bind, bind_assoc]
  refine inner.bind fun p held => (Finishes.make (.block [("p", p)] lexemeBlock)).imp fun v made => ?_
  obtain ⟨mark, same⟩ := made
  exact ⟨p, mark, held, same⟩

theorem symbolEvaluates {n : Nat} {env : Env} (bound : Grammatical env) (c : Char) :
    Finishes (eval (n + 2) env (symbol [c])) fun v =>
      ∃ mark inner, v = token mark (.parser inner (.char (.str [c]))) := by
  obtain ⟨name, own, found, lexeme⟩ := bound.symbol
  have char : Finishes (eval (n + 1) (Env.set own "c" (.str [c])) (.unary .char (.var "c"))) fun v =>
      ∃ mark, v = .parser mark (.char (.str [c])) := by
    simp only [eval, evalWith, Env.findSet, if_true, pure_bind]
    exact Finishes.make (.char (.str [c]))
  have lexeme : BindsLexeme (Env.set own "c" (.str [c])) := by
    rwa [BindsLexeme, Env.findSet, if_neg (by decide)]
  simp only [symbol, eval, evalWith, evalAllWith, evalNamedWith, Literal.eval, found, pure_bind]
  refine (lexemeEvaluates lexeme char).imp fun v made => ?_
  obtain ⟨_, mark, ⟨inner, rfl⟩, same⟩ := made
  exact ⟨mark, inner, same⟩

def numbersAndCommas (number comma sign : Mark) : Grammar :=
  .sepBy (token number Atom.num.value) (token comma (.parser sign (.char (.str [',']))))

theorem numberTokenWithin (mark : Mark) :
    ReadsWithin 5 (token mark Atom.num.value) ofFloat (Token NumberAt) :=
  tokenWithin rfl (numWithin.later (by decide)) (Nat.le_refl 4) numberLength mark

theorem charTokenWithin (mark sign : Mark) (c : Char) :
    ReadsWithin 5 (token mark (.parser sign (.char (.str [c])))) Value.ofChar (Token (CharAt c)) :=
  tokenWithin rfl ((charWithin sign c).later (by decide)) (Nat.le_refl 4) (charLength c) mark

theorem argumentsWithin (mark number comma sign : Mark) :
    ReadsWithin 6 (.parser mark (numbersAndCommas number comma sign))
      (fun xs => .list (xs.map ofFloat)) ListAt := by
  refine .ofGiven (fun _ => rfl) fun text limit ample => ?_
  have each (t : Text) (small : t.length ≤ text.length) :
      Finds ofFloat (Token NumberAt t) (read (apply limit) (token number Atom.num.value) (.str t)) :=
    (numberTokenWithin number).read (by omega)
  have further (t : Text) (small : t.length ≤ text.length) : Finds ofFloat (Further t)
      (Parser.keepRight (read (apply limit) (token comma (.parser sign (.char (.str [','])))))
        (read (apply limit) (token number Atom.num.value)) (.str t)) :=
    ((charTokenWithin comma sign ',').read (by omega)).bind fun c mid char =>
      each mid ((tokenLength (charLength ',') char).trans small)
  have parts : Finds (List.map ofFloat) (fun args rest => ∃ x mid, Token NumberAt text x mid ∧
      ∃ xs left, (Many Further mid xs left ∧ 0 ≤ xs.length) ∧ args = x :: xs ∧ rest = left)
      (Parser.sepBy1Within limit (read (apply limit) (token number Atom.num.value))
        (read (apply limit) (token comma (.parser sign (.char (.str [','])))))
        (.str text)) := by
    refine (each text (Nat.le_refl _)).bind fun x mid first => ?_
    have le := tokenLength numberLength first
    refine (Finds.repeated further furtherShrinks (by omega) le 0).bind fun xs left _ => ?_
    exact .ret (x :: xs) left
  have same (args : List Binary64) (rest : Text) : NumbersAt text args rest ↔
      ∃ x mid, Token NumberAt text x mid ∧
        ∃ xs left, (Many Further mid xs left ∧ 0 ≤ xs.length) ∧ args = x :: xs ∧ rest = left := by
    constructor
    · rintro ⟨x, xs, mid, number, many, rfl⟩
      exact ⟨x, mid, number, xs, rest, ⟨many, Nat.zero_le _⟩, rfl, rfl⟩
    · rintro ⟨x, mid, number, xs, _, ⟨many, -⟩, rfl, rfl⟩
      exact ⟨x, xs, mid, number, many, rfl⟩
  exact (Finds.alt (parts.congr same) (.ret [] text)).mapM fun xs => .done rfl

theorem argumentsEvaluate {n : Nat} {env : Env} (bound : Grammatical env) :
    Finishes (eval (n + 2) env (.binary .sepBy (lexeme (.atom .num)) (symbol [',']))) fun v =>
      v.isCallable = true ∧ ReadsWithin 6 v (fun xs => .list (xs.map ofFloat)) ListAt := by
  have number : Finishes (eval (n + 2) env (lexeme (.atom .num))) _ :=
    lexemeEvaluates bound.lexeme (.done rfl)
  refine number.bind fun v ⟨p, own, same, made⟩ => ?_
  refine (symbolEvaluates bound ',').bind fun u ⟨comma, sign, made'⟩ => ?_
  subst made made' same
  refine (Finishes.make (numbersAndCommas own comma sign)).imp ?_
  rintro _ ⟨mark, rfl⟩
  exact ⟨rfl, argumentsWithin mark own comma sign⟩

theorem nameEvaluates {n : Nat} {env : Env} (bound : Grammatical env) :
    Finishes (eval (n + 1) env (lexeme (.run identifierBlock))) fun v =>
      v.isCallable = true ∧ ReadsWithin 6 v .str (Token NameAt) := by
  have name : Finishes (eval (n + 1) env (.run identifierBlock)) fun v =>
      ∃ mark, v = .parser mark (.block env identifierBlock) := Finishes.make _
  refine (lexemeEvaluates bound.lexeme name).imp ?_
  rintro _ ⟨_, mark, ⟨inner, rfl⟩, rfl⟩
  exact ⟨rfl, tokenWithin rfl (identifierWithin inner env) (by decide) nameLength mark⟩

theorem charEvaluates {n : Nat} {env : Env} (bound : Grammatical env) (c : Char) :
    Finishes (eval (n + 2) env (symbol [c])) fun v =>
      v.isCallable = true ∧ ReadsWithin 5 v Value.ofChar (Token (CharAt c)) := by
  refine (symbolEvaluates bound c).imp ?_
  rintro _ ⟨mark, sign, rfl⟩
  exact ⟨rfl, charTokenWithin mark sign c⟩

theorem descriptorWithin (mark : Mark) {env : Env} (bound : Grammatical env) :
    ReadsWithin 8 (.parser mark (.block env descriptorBlock)) Descriptor.value Spelled := by
  refine blockWithin 7 mark (fun text n ample => ?_) (Nat.le_refl _)
  have parts : Finds Descriptor.value (fun d rest => ∃ w₀ t₀, Span isBlank text w₀ t₀ ∧
      ∃ name t₁, Token NameAt t₀ name t₁ ∧ ∃ c t₂, Token (CharAt '(') t₁ c t₂ ∧
        ∃ args t₃, ListAt t₂ args t₃ ∧ ∃ c' left, Token (CharAt ')') t₃ c' left ∧
          d = ⟨name, args⟩ ∧ rest = left)
      (blockFrom (n + 7) (n + 7) env descriptorBlock (.str text)) := by
    refine blockReads rfl (spacesEvaluate _ _) (by omega) fun w₀ t₀ blanks => ?_
    have le₀ := spanLength isBlank blanks
    refine blockReads rfl (nameEvaluates bound) (by omega) fun name t₁ held => ?_
    have le₁ := tokenLength nameLength held
    have named := bound.set (.str name) (x := "name") (by decide)
    refine blockReads rfl (charEvaluates named '(') (by omega) fun c t₂ opening => ?_
    have le₂ := tokenLength (charLength '(') opening
    refine blockReads rfl (argumentsEvaluate named) (by omega) fun args t₃ list => ?_
    have le₃ := listLength list
    have listed := named.set (.list (args.map ofFloat)) (x := "args") (by decide)
    refine blockReads rfl (charEvaluates listed ')') (by omega) fun c' left closing => ?_
    refine blockReturns rfl ?_
    simp only [eval, evalWith, evalAllWith, Env.receive, Env.findSet]
    exact .done rfl
  refine parts.congr fun d rest => (tokensSpell text d rest).symm.trans ?_
  obtain ⟨name, args⟩ := d
  constructor
  · rintro ⟨w₀, t₀, t₁, c, t₂, t₃, c', blanks, held, opening, list, closing⟩
    exact ⟨w₀, t₀, blanks, name, t₁, held, c, t₂, opening, args, t₃, list, c', rest, closing, rfl,
      rfl⟩
  · rintro ⟨w₀, t₀, blanks, _, t₁, held, c, t₂, opening, _, t₃, list, c', _, closing, same, rfl⟩
    cases same
    exact ⟨w₀, t₀, t₁, c, t₂, t₃, c', blanks, held, opening, list, closing⟩

def IsDescriptorParser (p : Value) : Prop :=
  ∃ mark env, Grammatical env ∧ p = .parser mark (.block env descriptorBlock)

theorem linkNone (env : Env) (w : Store) : Program.link [] env w = w := by
  obtain ⟨cells, events, name⟩ := w
  simp [Program.link]

theorem linksNone (env : Env) : Finishes (Eff.modify (Program.link [] env)) fun _ => True :=
  fun w => ⟨(), w.name, congrArg (Prod.mk _) (linkNone env w), trivial⟩

theorem descriptorParserMade (limit : Nat) :
    Finishes (descriptorParser limit) IsDescriptorParser := by
  have function (env : Env) : Finishes (eval limit env (.blockFn ["p"] lexemeBlock)) fun v =>
      ∃ name, v = .blockFn name ["p"] lexemeBlock env :=
    fun w => ⟨_, w.name.next, rfl, w.name, rfl⟩
  have symbol (env : Env) : Finishes (eval limit env (.lambda ["c"] symbolBody)) fun v =>
      ∃ name, v = .lambda name ["c"] symbolBody env := fun w => ⟨_, w.name.next, rfl, w.name, rfl⟩
  have block (env : Env) : Finishes (eval limit env (.run descriptorBlock)) fun v =>
      ∃ mark, v = .parser mark (.block env descriptorBlock) := Finishes.make _
  unfold descriptorParser Program.prepare Program.prepareBy descriptors
  simp only [Program.shareAll, Program.bindEachBy, pure_bind, bind_assoc]
  refine (linksNone _).bind fun _ _ => (function []).bind ?_
  rintro _ ⟨name, rfl⟩
  refine (linksNone _).bind fun _ _ => (symbol _).bind ?_
  rintro _ ⟨name', rfl⟩
  refine (linksNone _).bind fun _ _ => (block _).bind ?_
  rintro _ ⟨mark, rfl⟩
  refine (linksNone _).bind fun _ _ => .done ⟨mark, _, ⟨⟨name, rfl⟩, name', _, rfl, name, rfl⟩, rfl⟩

def verdict (text : Text) : Outcome Text Descriptor → Except (Refusal Text) Value
  | .failure => .error (.mismatch text descriptorWord)
  | .success d [] => .ok d.value
  | .success _ rest => .error (.leftover text rest descriptorWord)

theorem parsedByReads {limit : Nat} {text : Text} {p : Value}
    (reads : ReadsWithin 8 p Descriptor.value Spelled) (ample : text.length + 8 ≤ limit) (w : Store) :
    Decides (Spelled text) fun o => (parsedBy limit text p w).1 = .done (verdict text o) := by
  have exits {exit : Except (Refusal Value) Value} {w' : Store}
      (run : whole limit p descriptorWord (.str text) w = (.done exit, w')) :
      (parsedBy limit text p w).1 = .done (exit.mapError (Refusal.map Value.plain)) :=
    congrArg Prod.fst (Eff.bindOfDone run)
  refine (reads.readRest ample).imp fun o same => ?_
  obtain ⟨_, name, run, rfl⟩ := same w
  match o with
  | .failure => exact exits ((Eff.bindOfDone run).trans rfl)
  | .success d [] => exact exits ((Eff.bindOfDone run).trans rfl)
  | .success d (c :: rest) => exact exits ((Eff.bindOfDone run).trans rfl)

theorem descriptorParsed (text : Text) : Decides (Spelled text) fun o =>
    (parseDescriptor text).exit = .done (verdict text o) := by
  let limit := descriptorLimit text
  obtain ⟨p, name, made, mark, env, bound, same⟩ := descriptorParserMade limit ⟨#[], #[], 0⟩
  have parsed : (descriptorParser limit >>= parsedBy limit text) ⟨#[], #[], 0⟩ = _ :=
    Eff.bindOfDone made
  have exit : (parseDescriptor text).exit =
      ((descriptorParser limit >>= parsedBy limit text) ⟨#[], #[], 0⟩).1 := rfl
  rw [exit, parsed, same]
  exact parsedByReads (descriptorWithin mark bound) (Nat.le_refl _) _

theorem valueInjective {d d' : Descriptor} (same : d.value = d'.value) : d = d' := by
  obtain ⟨name, args⟩ := d
  obtain ⟨name', args'⟩ := d'
  simp only [Descriptor.value, Value.tuple.injEq, List.cons.injEq, Value.str.injEq,
    Value.list.injEq, and_true] at same
  obtain ⟨rfl, same⟩ := same
  have floats : Function.Injective fun x : Binary64 => Value.float x := fun x y same => by
    cases same
    rfl
  rw [List.map_injective_iff.mpr floats same]

theorem descriptorApplied {p : Value} (reads : ReadsWithin 8 p Descriptor.value Spelled)
    {limit : Nat} {text : Text} (ample : text.length + 8 ≤ limit) (w : Store) :
    ∃ o name, apply limit p (.str text) w = (.done (.ofOutcome o), w.naming name) ∧
      (∀ d rest, o = .success (Descriptor.value d) (.str rest) ↔ Spelled text d rest) ∧
      (o = .failure ↔ ∀ d rest, ¬ Spelled text d rest) := by
  cases reads text limit ample with
  | fails same none =>
    obtain ⟨_, name, run, rfl⟩ := same w
    refine ⟨.failure, name, run, fun d rest => ?_, fun _ => none, fun _ => rfl⟩
    exact ⟨nofun, fun held => absurd held (none d rest)⟩
  | fits d rest same only =>
    obtain ⟨_, name, run, rfl⟩ := same w
    refine ⟨_, name, run, fun d' rest' => ?_, nofun, fun none => ?_⟩
    · rw [only]
      constructor
      · intro equal
        obtain ⟨values, rests⟩ := Outcome.success.inj equal
        exact ⟨(valueInjective values).symm, (Value.str.inj rests).symm⟩
      · rintro ⟨rfl, rfl⟩
        rfl
    · exact absurd ((only d rest).mpr ⟨rfl, rfl⟩) (none d rest)

theorem descriptorAnswered (text : Text) :
    (∀ d, (parseDescriptor text).exit = .done (.ok (Descriptor.value d)) ↔ Spelled text d []) ∧
    (∀ rest, (parseDescriptor text).exit = .done (.error (.leftover text rest descriptorWord)) ↔
      rest ≠ [] ∧ ∃ d, Spelled text d rest) ∧
    ((parseDescriptor text).exit = .done (.error (.mismatch text descriptorWord)) ↔
      ∀ d rest, ¬ Spelled text d rest) := by
  cases descriptorParsed text with
  | fails same none =>
    rw [same]
    refine ⟨fun d => ⟨nofun, fun held => absurd held (none d [])⟩, fun rest => ⟨nofun, ?_⟩,
      fun _ => none, fun _ => rfl⟩
    exact fun held => absurd held.2.choose_spec (none _ rest)
  | fits d rest same only =>
    have never : ¬∀ d rest, ¬ Spelled text d rest := fun none =>
      none d rest ((only d rest).mpr ⟨rfl, rfl⟩)
    rw [same]
    simp only [only] at never ⊢
    cases rest with
    | nil =>
      refine ⟨fun d' => ⟨fun equal => ?_, ?_⟩, fun rest => ⟨nofun, ?_⟩, nofun, fun none =>
        absurd none never⟩
      · exact ⟨(valueInjective (Except.ok.inj (Exit.done.inj equal))).symm, rfl⟩
      · rintro ⟨rfl, -⟩
        rfl
      · exact fun ⟨more, _, _, empty⟩ => absurd empty more
    | cons c rest =>
      refine ⟨fun d' => ⟨nofun, fun held => nomatch held.2⟩, fun rest' => ⟨fun equal => ?_, ?_⟩,
        nofun, fun none => absurd none never⟩
      · cases equal
        exact ⟨nofun, d, rfl, rfl⟩
      · rintro ⟨-, _, rfl, rfl⟩
        rfl

/-- The parser of descriptors, wherever it is applied, and a parse of a whole text by it. -/
theorem descriptorAccepts :
    (∀ built, Finishes (descriptorParser built) fun p => ∀ {limit : Nat} {text : Text},
      text.length + 8 ≤ limit → ∀ w, ∃ o name,
        apply limit p (.str text) w = (.done (.ofOutcome o), w.naming name) ∧
        (∀ d rest, o = .success (Descriptor.value d) (.str rest) ↔ Spelled text d rest) ∧
        (o = .failure ↔ ∀ d rest, ¬ Spelled text d rest)) ∧
    ∀ text,
      (∀ d, (parseDescriptor text).exit = .done (.ok (Descriptor.value d)) ↔ Spelled text d []) ∧
      (∀ rest, (parseDescriptor text).exit =
          .done (.error (.leftover text rest "descriptor".toList)) ↔
        rest ≠ [] ∧ ∃ d, Spelled text d rest) ∧
      ((parseDescriptor text).exit = .done (.error (.mismatch text "descriptor".toList)) ↔
        ∀ d rest, ¬ Spelled text d rest) := by
  refine ⟨fun built => (descriptorParserMade built).imp fun p made => ?_, descriptorAnswered⟩
  obtain ⟨mark, env, bound, rfl⟩ := made
  exact fun ample w => descriptorApplied (descriptorWithin mark bound) ample w

def pointText : Text := ['p', '(', ' ', '1', '.', '5', ' ', ',', '-', '2', ')', ' ']

theorem pointSpelled : ∃ x y : Binary64, x.RoundedFrom (3 / 2) ∧ y.RoundedFrom (-2) ∧
    ∀ rest, StopsAt isBlank rest → Spelled (pointText ++ rest) ⟨['p'], [x, y]⟩ rest := by
  have one : ∀ c ∈ ['1'], isDigit c = true := List.forall_mem_singleton.mpr rfl
  have five : ∀ c ∈ ['5'], isDigit c = true := List.forall_mem_singleton.mpr rfl
  have two : ∀ c ∈ ['2'], isDigit c = true := List.forall_mem_singleton.mpr rfl
  have blank : Blank [' '] := List.forall_mem_singleton.mpr rfl
  have half : Numeral.rational ⟨false, ['1'], ['5']⟩ = 3 / 2 := by
    rw [rationalQuotient]
    change ((15 : ℕ) : ℚ) / (10 : ℕ) = _
    norm_num
  have minus : Numeral.rational ⟨true, ['2'], []⟩ = -2 := by
    rw [rationalQuotient]
    change -(((2 : ℕ) : ℚ) / (1 : ℕ)) = _
    norm_num
  have small : Numeral.Small ⟨false, ['1'], ['5']⟩ := by
    rw [Numeral.Small, half]
    exact boundAbove (by norm_num)
  have small' : Numeral.Small ⟨true, ['2'], []⟩ := by
    rw [Numeral.Small, minus]
    exact boundAbove (by norm_num)
  have first : Denotes ['1', '.', '5'] (Numeral.rounded ⟨false, ['1'], ['5']⟩) :=
    ⟨_, ⟨one, five⟩, rfl, rfl, small, roundedNearest small, roundedSign _⟩
  have second : Denotes ['-', '2'] (Numeral.rounded ⟨true, ['2'], []⟩) :=
    ⟨_, ⟨two, List.forall_mem_nil _⟩, rfl, rfl, small', roundedNearest small', roundedSign _⟩
  have none : Blank [] := List.forall_mem_nil _
  have name : IsName ['p'] := .mk rfl (List.forall_mem_nil _)
  have arguments := Arguments.more first blank none (.last second none)
  exact ⟨_, _, half ▸ roundedNearest small, minus ▸ roundedNearest small', fun rest stops =>
    .mk none name none blank (.some arguments) blank stops⟩

theorem pointRead : ∃ x y : Binary64, x.RoundedFrom (3 / 2) ∧ y.RoundedFrom (-2) ∧
    (parseDescriptor pointText).exit = .done (.ok (Descriptor.value ⟨['p'], [x, y]⟩)) ∧
    Finishes (descriptorParser 0) fun p => ∀ w, (apply 21 p (.str (pointText ++ ['z'])) w).1 =
      .done (.success (Descriptor.value ⟨['p'], [x, y]⟩) (.str ['z'])) := by
  obtain ⟨x, y, first, second, spells⟩ := pointSpelled
  have alone : Spelled pointText ⟨['p'], [x, y]⟩ [] := spells [] nofun
  have followed := spells ['z'] (by rintro _ _ ⟨⟩; rfl)
  refine ⟨x, y, first, second, ((descriptorAccepts.2 pointText).1 _).mpr alone, ?_⟩
  refine (descriptorAccepts.1 0).imp fun p accepts w => ?_
  have ample : (pointText ++ ['z']).length + 8 ≤ 21 := by decide
  obtain ⟨o, name, run, succeeds, -⟩ := accepts ample w
  rw [run, (succeeds _ _).mpr followed]
  rfl

end Script
end ParseKit
