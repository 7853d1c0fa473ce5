import ParseKit.Proofs.Settling

/-! Trees of parsers come to an end. The operands of a parser are its children, and so are the
parsers that its function returns. Main statement: where the functions end and all that is
repeated takes something of the text each time, a tree without shared parsers and blocks
settles on every text. -/
namespace ParseKit.Script
open Eff (Below)
open ParseKit.Parser (Leaves)

section
variable {I : Invariant}

def Applies (I : Invariant) (p : Value) : Prop :=
  ∀ text w, I.holds w → Settles I (fun n => applyParser n p (.str text)) w

theorem giveSettles {p : Nat → Parser Value Store Value} (total : Total I p) (text : Text) {w : Store}
    (start : I.holds w) : Settles I (fun n => give (p n) (.str text)) w :=
  (total.settles text w start).bind (total.growsAt _) (fun _ => Grows.const _)
    fun _ _ _ _ kept => .done _ kept

section
variable {p : Value} (applies : Applies I p)
include applies

theorem readByTotal {view : Value → Except Fault (Outcome Value Value)}
    (failing : view .failure = .ok .failure)
    (succeeding : ∀ a rest, view (.success a rest) = .ok (.success a rest)) :
    Total I fun n => readBy (applyParser n) view p where
  grows le := readByBelow (applyParserGrows le) view p
  leaves n := readByLeaves (applyParserLeaves n) failing succeeding p
  settles text w start :=
    (applies text w start).bind (fun _ _ le => applyParserGrows le p _) (fun _ => Grows.const _)
      fun _ r _ _ kept => .ofExcept (view r) kept

theorem readTotal : Total I fun n => read (applyParser n) p :=
  readByTotal applies rfl fun _ _ => rfl

theorem readRestTotal : Total I fun n => readRest (applyParser n) p :=
  readByTotal applies rfl fun _ _ => rfl

theorem readPartsTotal : Total I fun n => readParts (applyParser n) p :=
  readByTotal applies rfl fun _ _ => rfl

theorem readWithTotal (operation : String) :
    Total I fun n => readWith (applyParser n) operation p := by
  cases p with
  | parser mark g => exact readTotal applies
  | _ => exact .still (fun _ => .raise) fun _ => .raise _

theorem separatorTotal {sep : Value} (separates : Applies I sep) :
    Total I fun n => separator (applyParser n) p sep := by
  cases sep with
  | parser mark g => exact readTotal separates
  | _ => exact (readTotal applies).bind fun _ => .still (fun _ => .raise) fun _ => .raise _

end

theorem firstOfSettles {ps : List Value} (each : ∀ p ∈ ps, Applies I p) (text : Text) {w : Store}
    (start : I.holds w) : Settles I (fun n => firstOf (applyParser n) ps (.str text)) w := by
  match ps with
  | [] => exact .done _ start
  | [p] => exact each p List.mem_cons_self text w start
  | p :: q :: ps =>
    obtain ⟨first, others⟩ := List.forall_mem_cons.mp each
    refine (first text w start).bind (fun _ _ le => applyParserGrows le p _)
      (fun r m n le => ?_) fun n r v _ kept => ?_
    · split
      · exact .refl _
      · exact firstOfBelow (applyParserGrows le) (q :: ps) _
    · split
      · exact .done r kept
      · exact firstOfSettles others text kept

end

def Grammar.operands : Grammar → List Value
  | bind p _ | map p _ | option _ p | repeated _ _ p | count _ p | optional p => [p]
  | pair a b | keepRight a b | keepLeft a b | sepBy a b | sepBy1 a b | chainl1 a b => [a, b]
  | between opening closing p => [opening, closing, p]
  | choice ps | sequenceText ps => ps
  | _ => []

def Grammar.isPlain : Grammar → Bool
  | shared _ | block .. => false
  | _ => true

def Grammar.FunctionsEnd (I : Invariant) : Grammar → Prop
  | sat f | bind _ f | map _ f => CallsEnd I f 1
  | chainl1 _ op => ∀ limit text w f rest v, I.holds w →
    apply limit op (.str text) w = (.done (.success f rest), v) → CallsEnd I f 2
  | _ => True

def Grammar.RoundsConsume : Grammar → Prop
  | repeated _ _ p => Consuming p
  | sepBy p sep | sepBy1 p sep => Consuming p ∨ Consuming sep
  | chainl1 p op => Consuming p ∨ Consuming op
  | _ => True

inductive Tree (I : Invariant) : Value → Prop where
  | node {mark : Mark} {g : Grammar} (plain : g.isPlain = true) (functions : g.FunctionsEnd I)
    (rounds : g.RoundsConsume) (operands : ∀ p ∈ g.operands, Tree I p)
    (returned : ∀ p f limit v w q w', g = .bind p f → I.holds w →
      call limit f [v] [] w = (.done q, w') → Tree I q) : Tree I (.parser mark g)
  | other {v : Value} (plain : v.isCallable = false) : Tree I v

section
variable {I : Invariant}

theorem consumingShrinks {p : Value} (consuming : Consuming p) (n : Nat) :
    Shrinks (read (applyParser n) p) := readShrinks (consumingTakes consuming n)

theorem roundShrinks {p sep : Value} (either : Consuming p ∨ Consuming sep) (n : Nat) :
    Shrinks ((separator (applyParser n) p sep).keepRight (read (applyParser n) p)) := by
  have leaves := applyParserLeaves n
  rcases either with operand | consuming
  · exact .bindTail (separatorLeaves leaves p sep) fun _ => consumingShrinks operand n
  · cases sep with
    | parser mark g => exact (consumingShrinks consuming n).bindHead fun _ => readLeaves leaves p
    | _ => cases consuming

theorem chainRoundShrinks {p op : Value} (either : Consuming p ∨ Consuming op) (n : Nat) :
    Shrinks ((readRest (applyParser n) op).pair (read (applyParser n) p)) := by
  have leaves := applyParserLeaves n
  rcases either with operand | operator
  · exact .pairRight (readRestLeaves leaves op) (consumingShrinks operand n)
  · exact .pairLeft (readRestShrinks (consumingTakes operator n)) (readLeaves leaves p)

theorem joinStill {ω : Type} (vs : List Value) : Still (joinTexts vs : Eff ω Value) := by
  unfold joinTexts
  split
  · exact .done _
  · exact .raise _

theorem collectStill {ω : Type} (collect : Collect) (vs : List Value) :
    Still (collect.apply vs : Eff ω Value) := by
  cases collect with
  | asList => exact .done _
  | joined => exact joinStill vs
  | dropped => exact .done _

theorem outcomeSuccess {part : String} {r a rest : Value}
    (viewed : Value.outcome part r = .ok (.success a rest)) : r = .success a rest := by
  unfold Value.outcome at viewed
  split at viewed
  · cases viewed
    rfl
  · split at viewed <;> cases viewed

theorem readRestDone {apply : Applier} {p x a rest : Value} {w v : Store}
    (run : readRest apply p x w = (.done (.success a rest), v)) :
    apply p x w = (.done (.success a rest), v) := by
  obtain ⟨r, u, first, run⟩ := Eff.bindDoneIff.mp run
  cases viewed : Value.outcome "remaining" r with
  | error fault => rw [viewed] at run; cases run
  | ok o =>
    rw [viewed] at run
    cases run
    rw [first, outcomeSuccess viewed]

theorem operatorsEnd {p op : Value} (functions : (Grammar.chainl1 p op).FunctionsEnd I) (n : Nat)
    (text : Text) (w : Store) (f rest : Value) (v : Store) (start : I.holds w)
    (run : readRest (applyParser n) op (.str text) w = (.done (.success f rest), v)) (x y : Value)
    (u : Store) (kept : I.holds u) : Settles I (fun n => call n f [x, y] []) u := by
  have applied := (applyParserBelow n op (.str text)).ends (readRestDone run) nofun
  exact functions n text w f rest v start applied [x, y] u rfl kept

theorem nodeSettles {g : Grammar} (plain : g.isPlain = true) (functions : g.FunctionsEnd I)
    (rounds : g.RoundsConsume) (operands : ∀ p ∈ g.operands, Applies I p)
    (returned : ∀ p f limit v w q w', g = .bind p f → I.holds w →
      call limit f [v] [] w = (.done q, w') → Applies I q) (text : Text) {w : Store}
    (start : I.holds w) :
    Settles I (fun n => g.applyWith (applyParser n) (call n) n (.str text)) w := by
  have grows := fun p (m n : Nat) (le : m ≤ n) => applyParserGrows le p
  cases g with
  | leaf l => exact giveSettles (.leaf l) text start
  | ret v => exact giveSettles (.ret v) text start
  | char c =>
    have leaves : Leaves textSuffix (charEqual c : Parser Value Store Value) :=
      readingLeaves (.sat _) _ _
    exact giveSettles (.still leaves fun text => readsStill (.sat _ text) _ _) text start
  | string word => exact giveSettles (.still (stringLeaves word) (stringStill word)) text start
  | oneOf members =>
    have leaves : Leaves textSuffix (oneOf members : Parser Value Store Value) :=
      readingLeaves (.sat _) _ _
    exact giveSettles (.still leaves fun text => readsStill (.sat _ text) _ _) text start
  | noneOf members =>
    have leaves : Leaves textSuffix (noneOf members : Parser Value Store Value) :=
      readingLeaves (.sat _) _ _
    exact giveSettles (.still leaves fun text => readsStill (.sat _ text) _ _) text start
  | sat test =>
    have one : Total I fun _ => (item : Parser Value Store Value) := .leaf .item
    refine giveSettles (one.filterM (fun v => ?_) fun v w start => ?_) text start
    · exact (callGrows test [v]).bind fun _ => Grows.const _
    · exact (functions [v] w rfl start).bind (callGrows test [v]) (fun _ => Grows.const _)
        fun _ _ _ _ kept => .done _ kept
  | trace label => exact giveSettles (.trace label) text start
  | bind p f =>
    have head := readTotal (operands p List.mem_cons_self)
    refine head.follow (fun o => ?_) start (fun v kept => .done _ kept) fun n v rest u _ kept => ?_
    · cases o with
      | failure => exact Grows.const _
      | success v rest => exact (callGrows f [v]).bind fun q m n le => grows q m n le rest
    · exact (functions [v] u rfl kept).bind (callGrows f [v]) (fun q m n le => grows q m n le _)
        fun n q t called settled => returned p f n v u q t rfl kept called rest t settled
  | map p f =>
    have head := readTotal (operands p List.mem_cons_self)
    exact giveSettles (head.mapM (fun v => callGrows f [v]) fun v w => functions [v] w rfl) text start
  | choice ps => exact firstOfSettles operands text start
  | option default p =>
    refine (operands p List.mem_cons_self text w start).bind (fun m n le => grows p m n le _)
      (fun _ => Grows.const _) fun n r v _ kept => ?_
    split
    · exact .done _ kept
    · exact .done _ kept
  | pair a b =>
    have first := readRestTotal (operands a List.mem_cons_self)
    have second := readTotal (operands b (by simp [Grammar.operands]))
    exact giveSettles ((first.pair second).map _) text start
  | keepRight a b =>
    have first := readTotal (operands a List.mem_cons_self)
    have second := operands b (by simp [Grammar.operands])
    refine first.follow (fun o => ?_) start (fun v kept => .done _ kept)
      fun n v rest u _ kept => second rest u kept
    cases o with
    | failure => exact Grows.const _
    | success v rest => exact fun m n le => grows b m n le rest
  | keepLeft a b =>
    have first := readTotal (operands a List.mem_cons_self)
    have second := readWithTotal (operands b (by simp [Grammar.operands])) "map"
    exact giveSettles (first.keepLeft second) text start
  | repeated least collect p =>
    have head := readTotal (operands p List.mem_cons_self)
    have loop := head.repeated (consumingShrinks rounds) least
    have collected : Total I fun n =>
        (Parser.repeated n least (read (applyParser n) p)).mapM collect.apply :=
      loop.mapM (fun _ => Grows.const _) fun vs _ => (collectStill collect vs).settles
    exact giveSettles collected text start
  | sequenceText ps =>
    have parts : Total I fun n => Parser.sequence (ps.map (read (applyParser n))) :=
      .sequenceFrom (fun p member => readTotal (operands p member)) []
    have joined : Total I fun n =>
        (Parser.sequence (ps.map (read (applyParser n)))).mapM joinTexts :=
      parts.mapM (fun _ => Grows.const _) fun vs _ => (joinStill vs).settles
    exact giveSettles joined text start
  | count k p =>
    have head := readTotal (operands p List.mem_cons_self)
    exact giveSettles ((head.countFrom [] k.toNat).map _) text start
  | between opening closing p =>
    have first := readTotal (operands opening List.mem_cons_self)
    have last := readWithTotal (operands closing (by simp [Grammar.operands])) "bind"
    have inner := readWithTotal (operands p (by simp [Grammar.operands])) "bind"
    exact giveSettles (first.between last inner) text start
  | optional p =>
    have head := readTotal (operands p List.mem_cons_self)
    exact giveSettles (head.optional.map _) text start
  | sepBy p sep =>
    have operand := operands p List.mem_cons_self
    have separates := separatorTotal operand (operands sep (by simp [Grammar.operands]))
    have list := (readTotal operand).sepByWithin separates (roundShrinks rounds)
    exact giveSettles (list.map _) text start
  | sepBy1 p sep =>
    have operand := operands p List.mem_cons_self
    have separates := separatorTotal operand (operands sep (by simp [Grammar.operands]))
    have list := (readTotal operand).sepBy1Within separates (roundShrinks rounds)
    exact giveSettles (list.map _) text start
  | chainl1 p op =>
    have operand := operands p List.mem_cons_self
    have operator := readRestTotal (operands op (by simp [Grammar.operands]))
    have chain := Total.chainl1 (readTotal operand) operator (chainRoundShrinks rounds)
      (fun f x y => callGrows f [x, y]) (operatorsEnd functions) (readPartsTotal operand)
    exact giveSettles chain text start
  | raising fault => exact .raise fault start
  | shared id => cases plain
  | block env body => cases plain

theorem applyParserOther {v : Value} (plain : v.isCallable = false) (n : Nat) (x : Value) :
    applyParser (n + 1) v x = Eff.raise (.notCallable v.kind) := by
  cases v with
  | parser mark g => cases plain
  | _ => first | rfl | cases plain

theorem treeApplies {p : Value} (tree : Tree I p) : Applies I p := by
  induction tree with
  | other plain =>
    refine fun text w start => .next ?_
    simp only [applyParserOther plain]
    exact .raise _ start
  | node plain functions rounds _ _ operands returned =>
    exact fun text w start => .next (nodeSettles plain functions rounds operands returned text start)

end

end ParseKit.Script
