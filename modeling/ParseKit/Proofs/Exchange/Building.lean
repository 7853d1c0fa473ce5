import ParseKit.Proofs.Exchange.Alike

/-! What is built from values that are alike: parsers with operands that are alike, or the same plain
value. An operator that compares lists is wary of those that both have singular things in them. -/
namespace ParseKit.Script

section
variable (X : Exchange)

inductive Made.Alike : Made → Made → Prop where
  | parser {g g' : Grammar} (alike : g.Alike X g') : Made.Alike (.parser g) (.parser g')
  | value {v v' : Value} (alike : v.Alike X v') : Made.Alike (.value v) (.value v')

end

section
variable {X : Exchange} {v v' w w' : Value}

theorem Atom.alike (a : Atom) : a.value.Alike X a.value := by
  cases a with
  | spaces | spaces1 => exact .parser (.repeated _ _ (.parser (.leaf _)))
  | _ => exact .parser (.leaf _)

theorem builtAlike (alike : v.Alike X v') (operation : String) {g g' : Grammar}
    (grammars : g.Alike X g') :
    ResultAlike (Made.Alike X) (v.built operation g) (v'.built operation g') := by
  cases alike.shaped with
  | parser => exact .ok (.parser grammars)
  | _ => exact .error _

theorem optionAlike (default : v.Alike X v') (operand : w.Alike X w') :
    ResultAlike (Made.Alike X) (buildOption v w) (buildOption v' w') := by
  have whole : Made.Alike X (.parser (.option v w)) (.parser (.option v' w')) :=
    .parser (.option default operand)
  cases operand.shaped with
  | parser => exact .ok whole
  | _ => exact .error _

namespace Bitwise

def onNumbers (op : Bitwise) (v w : Value) : Except Fault Value :=
  match v.integer?, w.integer? with
  | some m, some n => (op.onIntegers m n).map .int
  | _, _ => .error (.unsupported op.symbol v.kind w.kind)

theorem calculateSeen (op : Bitwise) (v w : Value) :
    op.calculate v.seen w.seen = op.calculate v w := by
  have others : op.onNumbers v.seen w.seen = op.onNumbers v w := by
    unfold onNumbers
    rw [Value.integerSeen, Value.integerSeen, Value.kindSeen, Value.kindSeen]
  cases op <;> cases v with
  | bool a => cases w <;> rfl
  | _ => exact others

theorem calculateItself (op : Bitwise) (v w : Value) {u : Value}
    (run : op.calculate v w = .ok u) : u.Alike X u := by
  unfold calculate at run
  split at run
  · cases run
    exact .bool _
  · cases run
    exact .bool _
  · split at run
    · cases given : op.onIntegers _ _ with
      | ok n =>
        rw [given] at run
        cases run
        exact .int n
      | error fault =>
        rw [given] at run
        cases run
    · cases run

theorem calculateAlike (op : Bitwise) (left : v.Alike X v') (right : w.Alike X w') :
    ResultAlike (Value.Alike X) (op.calculate v w) (op.calculate v' w') := by
  refine .same ?_ fun u run => op.calculateItself v w run
  rw [← calculateSeen, left.seen, right.seen, calculateSeen]

theorem combineAlike (op : Bitwise) (left : v.Alike X v') (right : w.Alike X w') :
    ResultAlike (Made.Alike X) (op.combine v w) (op.combine v' w') := by
  have calculated := (op.calculateAlike left right).map (S := Made.Alike X)
    fun _ _ alike => .value alike
  cases left.shaped with
  | parser m n g g' =>
    cases op with
    | bar => exact .ok (.parser (.choice (.cons left (.cons right .nil))))
    | ampersand => exact .ok (.parser (.pair left right))
    | shift =>
      have bound : Made.Alike X (.parser (.bind (.parser m g) w))
        (.parser (.bind (.parser n g') w')) := .parser (.bind left right)
      cases right.shaped with
      | parser => exact .ok (.parser (.keepRight left right))
      | _ => exact .ok bound
  | _ => cases op <;> exact calculated

end Bitwise

namespace Comparison

theorem plainParts {vs ws : List Value}
    (plain : (Value.anySingular (v :: vs) && Value.anySingular (w :: ws)) = false) :
    (v.singular && w.singular) = false ∧
      (Value.anySingular vs && Value.anySingular ws) = false := by
  simp only [Value.anySingular, Bool.and_eq_false_iff, Bool.or_eq_false_iff] at plain ⊢
  tauto

theorem mixesPlain (plain : (v.singular && w.singular) = false) : v.mixes w = false := by
  unfold Value.mixes
  split
  · exact plain
  · exact plain
  · rfl

theorem ofLeftAlike (op : Comparison) (left : v.Alike X v') (right : w.Alike X w') :
    Made.Alike X (.parser (op.ofLeft v w)) (.parser (op.ofLeft v' w')) := by
  cases op with
  | greater => exact .parser (.keepRight left right)
  | less => exact .parser (.keepLeft left right)

def Bare (v w : Value) : Prop :=
  v.kind ≠ .parser ∧ w.kind ≠ .parser ∧ ∀ kind ∈ [Kind.str, .list, .tuple], v.kind = kind → w.kind ≠ kind

theorem combineBare (op : Comparison) (bare : Bare v w) : op.combine v w =
    if v.isNumber && w.isNumber then .ok (.value (.bool (op.ordering Value.numberLess v w)))
    else .error (.incomparable op.symbol v.kind w.kind) := by
  obtain ⟨left, right, both⟩ := bare
  rw [combine]
  · rintro m g rfl
    exact left rfl
  · rintro m g rfl
    exact right rfl
  · rintro s t rfl rfl
    exact both .str (by simp) rfl rfl
  · rintro vs ws rfl rfl
    exact both .list (by simp) rfl rfl
  · rintro vs ws rfl rfl
    exact both .tuple (by simp) rfl rfl

theorem numberLessSeen (v w : Value) : v.seen.numberLess w.seen = v.numberLess w := by
  unfold Value.numberLess
  rw [Value.placeSeen, Value.placeSeen]

theorem bareAlike (op : Comparison) (left : v.Alike X v') (right : w.Alike X w')
    (bare : Bare v w) : ResultAlike (Made.Alike X) (op.combine v w) (op.combine v' w') := by
  have bare' : Bare v' w' := by
    unfold Bare
    rw [← left.kind, ← right.kind]
    exact bare
  have less (v w : Value) (op : Comparison) :
      op.ordering Value.numberLess v.seen w.seen = op.ordering Value.numberLess v w := by
    cases op <;> exact numberLessSeen ..
  have number := Value.sameOfSeen Value.isNumberSeen left.seen
  have number' := Value.sameOfSeen Value.isNumberSeen right.seen
  rw [combineBare op bare, combineBare op bare', number, number', left.kind, right.kind,
    ← less v w, left.seen, right.seen, less]
  split
  · exact .ok (.value (.bool _))
  · exact .error _

theorem bareOther (parser : ∀ m g, v = .parser m g → False) (parser' : ∀ m g, w = .parser m g → False)
    (texts : ∀ s t, v = .str s → w = .str t → False)
    (lists : ∀ vs ws, v = .list vs → w = .list ws → False)
    (tuples : ∀ vs ws, v = .tuple vs → w = .tuple ws → False) : Bare v w := by
  refine ⟨?_, ?_, ?_⟩
  · cases v with
    | parser m g => exact (parser m g rfl).elim
    | _ => nofun
  · cases w with
    | parser m g => exact (parser' m g rfl).elim
    | _ => nofun
  · cases v with
    | str s => cases w with
      | str t => exact (texts s t rfl rfl).elim
      | _ => simp [Value.kind]
    | list vs => cases w with
      | list ws => exact (lists vs ws rfl rfl).elim
      | _ => simp [Value.kind]
    | tuple vs => cases w with
      | tuple ws => exact (tuples vs ws rfl rfl).elim
      | _ => simp [Value.kind]
    | _ => simp [Value.kind]

theorem orderedAlike (op : Comparison) (vs ws : List Value) {vs' ws' : List Value}
    (left : AllAlike X vs vs') (right : AllAlike X ws ws') :
    Made.Alike X (.value (.bool (op.ordering (fun m n => m < n) vs.length ws.length)))
      (.value (.bool (op.ordering (fun m n => m < n) vs'.length ws'.length))) := by
  rw [left.length, right.length]
  exact .value (.bool _)

theorem comparesAlike (op : Comparison) :
    (∀ v w v' w', Value.Alike X v v' → w.Alike X w' → v.mixes w = false →
      ResultAlike (Made.Alike X) (op.combine v w) (op.combine v' w')) ∧
    ∀ vs ws vs' ws', AllAlike X vs vs' → AllAlike X ws ws' →
      (Value.anySingular vs && Value.anySingular ws) = false →
        ResultAlike (Made.Alike X) (op.combineAll vs ws) (op.combineAll vs' ws') := by
  refine combine.mutual_induct
    (fun v w => ∀ v' w', v.Alike X v' → w.Alike X w' → v.mixes w = false →
      ResultAlike (Made.Alike X) (op.combine v w) (op.combine v' w'))
    (fun vs ws => ∀ vs' ws', AllAlike X vs vs' → AllAlike X ws ws' →
      (Value.anySingular vs && Value.anySingular ws) = false →
        ResultAlike (Made.Alike X) (op.combineAll vs ws) (op.combineAll vs' ws'))
    ?parser ?turned ?texts ?lists ?tuples ?numbers ?others ?equals ?differs ?ended
  case parser =>
    intro m g w v' w' left right _
    have whole := op.ofLeftAlike left right
    cases left.shaped with
    | parser => exact .ok whole
  case turned =>
    intro v m g other v' w' left right _
    have whole := op.turned.ofLeftAlike right left
    cases right.shaped with
    | parser =>
      rw [combine]
      · cases left.shaped with
        | parser => exact (other _ _ rfl).elim
        | _ => exact .ok whole
      · exact other
  case texts =>
    intro s t v' w' left right _
    cases left.shaped
    cases right.shaped
    simp only [combine]
    exact .ok (.value (.bool _))
  case lists =>
    intro vs ws ih v' w' left right plain
    cases left.shaped with
    | list items => cases right.shaped with
      | list others => simpa only [combine] using ih _ _ items others plain
  case tuples =>
    intro vs ws ih v' w' left right plain
    cases left.shaped with
    | tuple items => cases right.shaped with
      | tuple others => simpa only [combine] using ih _ _ items others plain
  case numbers =>
    intro v w parser parser' texts lists tuples _ v' w' left right _
    exact op.bareAlike left right (bareOther parser parser' texts lists tuples)
  case others =>
    intro v w parser parser' texts lists tuples _ v' w' left right _
    exact op.bareAlike left right (bareOther parser parser' texts lists tuples)
  case equals =>
    intro v vs w ws same ih vs' ws' left right plain
    cases left with
    | cons first others => cases right with
      | cons first' others' =>
        obtain ⟨plain, further⟩ := plainParts plain
        have same' := (Value.equalOfSeen first.seen first'.seen plain).symm.trans same
        simp only [combineAll, same, same', if_true]
        exact ih _ _ others others' further
  case differs =>
    intro v vs w ws other ih vs' ws' left right plain
    cases left with
    | cons first others => cases right with
      | cons first' others' =>
        obtain ⟨plain, _⟩ := plainParts plain
        have other' := (Value.equalOfSeen first.seen first'.seen plain).symm
        simp only [combineAll, other, other']
        exact ih _ _ first first' (mixesPlain plain)
  case ended =>
    intro vs ws ended vs' ws' left right _
    have whole := op.orderedAlike vs ws left right
    rw [combineAll]
    · cases left with
      | nil => cases right with
        | nil => exact .ok whole
        | cons => exact .ok whole
      | cons => cases right with
        | nil => exact .ok whole
        | cons => exact (ended _ _ _ _ rfl rfl).elim
    · exact ended

end Comparison

theorem foldAlike {vs vs' : List Value} (items : AllAlike X vs vs') (first : v.Alike X v') :
    ResultAlike (Value.Alike X) (vs.foldlM Bitwise.bar.calculate v)
      (vs'.foldlM Bitwise.bar.calculate v') := by
  replace items := items.forall₂
  induction items generalizing v v' with
  | nil => exact .ok first
  | cons here _ ih => exact (Bitwise.bar.calculateAlike first here).bind fun _ _ alike => ih alike

theorem choiceAlike {vs vs' : List Value} (items : AllAlike X vs vs') :
    ResultAlike (Made.Alike X) (buildChoice vs) (buildChoice vs') := by
  cases items with
  | nil => exact .ok (.value Atom.fail.alike)
  | cons first others =>
    have folded := (foldAlike others first).map (S := Made.Alike X) fun _ _ alike => .value alike
    have whole := Made.Alike.parser (.choice (.cons first others))
    cases others with
    | nil => cases first.shaped <;> exact .ok (.value first)
    | cons second others =>
      cases first.shaped with
      | parser => exact .ok whole
      | _ => exact folded

theorem Unary.buildAlike (op : Unary) (alike : v.Alike X v') :
    ResultAlike (Made.Alike X) (op.build v) (op.build v') := by
  cases op with
  | ret => exact .ok (.parser (.ret alike))
  | char => exact .ok (.parser (.char alike))
  | string => exact .ok (.parser (.string alike))
  | oneOf => exact alike.members.bind fun _ _ members => .ok (.parser (.oneOf members))
  | noneOf => exact alike.members.bind fun _ _ members => .ok (.parser (.noneOf members))
  | sat => exact .ok (.parser (.sat alike))
  | many | many1 | manyText | many1Text | skipMany => exact .ok (.parser (.repeated _ _ alike))
  | sequenceText => exact alike.elements.bind fun _ _ items => .ok (.parser (.sequenceText items))
  | choice => exact alike.alternatives.bind fun _ _ items => choiceAlike items
  | optionMaybe => exact optionAlike .none alike
  | optional => exact builtAlike alike "bind" (.optional alike)
  | trace =>
    have same : v.plain = v'.plain := Value.sameOfSeen Value.plainSeen alike.seen
    simp only [Unary.build, same]
    exact .ok (.parser (.trace _))

theorem countAlike (amount : v.Alike X v') (operand : w.Alike X w') :
    ResultAlike (Made.Alike X) (buildCount v w) (buildCount v' w') := by
  have counted (n : Int) : Made.Alike X (.parser (.count n w)) (.parser (.count n w')) :=
    .parser (.count n operand)
  cases amount.shaped with
  | @float x y bits =>
    have less : (Value.int 0).numberLess (.float x) = (Value.int 0).numberLess (.float y) := by
      rw [← Comparison.numberLessSeen, amount.seen, Comparison.numberLessSeen]
    simp only [buildCount, less, bits]
    split
    · exact .ok (.parser (.raising _))
    · exact .ok (counted 0)
  | bool b => exact .ok (counted _)
  | int n => exact .ok (counted n)
  | _ => exact .error _

theorem Binary.buildAlike (op : Binary) (left : v.Alike X v') (right : w.Alike X w')
    (plain : op.mixes v w = false) :
    ResultAlike (Made.Alike X) (op.build v w) (op.build v' w') := by
  cases op with
  | bind => exact builtAlike left "bind" (.bind left right)
  | map => exact builtAlike left "map" (.map left right)
  | sepBy => exact builtAlike left "bind" (.sepBy left right)
  | sepBy1 => exact builtAlike left "bind" (.sepBy1 left right)
  | andThen | alt | pair => exact Bitwise.combineAlike _ left right
  | keepRight | keepLeft => exact (Comparison.comparesAlike _).1 v w v' w' left right plain
  | count => exact countAlike left right
  | option => exact optionAlike left right
  | chainl1 => exact .ok (.parser (.chainl1 left right))

theorem betweenAlike {u u' : Value} (opening : v.Alike X v') (closing : w.Alike X w')
    (inner : u.Alike X u') :
    ResultAlike (Made.Alike X) (buildBetween v w u) (buildBetween v' w' u') :=
  builtAlike opening "bind" (.between opening closing inner)

namespace Builtin
variable {args args' : List Value}

theorem computeAlike (b : Builtin) (given : AllAlike X args args') :
    Option.Rel (Value.Alike X) (b.compute args) (b.compute args') := by
  cases given with
  | nil => cases b <;> exact .none
  | cons first others =>
    cases b with
    | div | log | raise | holds => exact .none
    | identity => cases others with
      | nil => exact .some first
      | cons => exact .none
    | int =>
      cases first.shaped <;> cases others <;> try exact .none
      next s =>
        simp only [compute]
        cases readInt? s with
        | none => exact .none
        | some n => exact .some (.int n)
    | str | neg | upper | not =>
      cases first.shaped <;> cases others <;> try exact .none
      first | exact .some (.int _) | exact .some (.str _) | exact .some (.bool _)
    | len =>
      cases first.shaped <;> cases others <;> try exact .none
      · exact .some (.int _)
      all_goals
        next items =>
          simp only [compute, items.length]
          exact .some (.int _)
    | rev =>
      cases first.shaped <;> cases others <;> try exact .none
      · exact .some (.str _)
      · next items => exact .some (.list items.reverse)
    | join =>
      cases first.shaped <;> cases others <;> try exact .none
      next vs vs' items =>
        have same : allTexts 0 vs = allTexts 0 vs' := by
          rw [← Value.allTextsSeen, items.seen, Value.allTextsSeen]
        simp only [compute, same]
        cases allTexts 0 vs' with
        | ok texts => exact .some (.str _)
        | error wrong => exact .none
    | fst =>
      cases first.shaped with
      | tuple items => cases items with
        | nil => cases others <;> exact .none
        | cons inner => cases others with
          | nil => exact .some inner
          | cons => exact .none
      | _ => exact .none
    | snd =>
      cases first.shaped with
      | tuple items => cases items with
        | nil => cases others <;> exact .none
        | cons first further => cases further with
          | nil => cases others <;> exact .none
          | cons second => cases others with
            | nil => exact .some second
            | cons => exact .none
      | _ => exact .none
    | pair => cases others with
      | nil => exact .none
      | cons second others => cases others with
        | nil => exact .some (.tuple (.cons first (.cons second .nil)))
        | cons => exact .none
    | eq => cases others with
      | nil => exact .none
      | cons second others => cases others with
        | nil =>
          simp only [compute, Value.identicalOfSeen first.seen second.seen]
          exact .some (.bool _)
        | cons => exact .none
    | append =>
      cases first.shaped <;> cases others <;> try exact .none
      next items _ _ _ _ second others => cases others with
        | nil => exact .some (.list (items.append (.cons second .nil)))
        | cons => exact .none
    | add =>
      cases first.shaped <;> cases others <;> try exact .none
      · next second others =>
          cases second.shaped <;> cases others <;> first | exact .none | exact .some (.int _)
      · next second others =>
          cases second.shaped <;> cases others <;> first | exact .none | exact .some (.str _)
      · next items _ _ _ _ second others =>
          cases second.shaped <;> cases others <;> try exact .none
          next further => exact .some (.list (items.append further))
    | sub | mul =>
      cases first.shaped <;> cases others <;> try exact .none
      next second others =>
        cases second.shaped <;> cases others <;> first | exact .none | exact .some (.int _)
    | lt =>
      cases first.shaped <;> cases others <;> try exact .none
      · next second others =>
          cases second.shaped <;> cases others <;> first | exact .none | exact .some (.bool _)
      · next bits _ _ _ _ second others =>
          cases second.shaped <;> cases others <;> try exact .none
          next further =>
            simp only [compute, bits, further]
            exact .some (.bool _)

theorem arithmeticAlike (b : Builtin) (given : AllAlike X args args') :
    b.arithmetic? args = b.arithmetic? args' := by
  cases given with
  | nil => rfl
  | cons first others =>
    cases b with
    | neg =>
      cases first.shaped <;> cases others <;> try rfl
      next bits => simp only [arithmetic?, bits]
    | add | sub | mul | div =>
      cases first.shaped <;> cases others <;> try rfl
      next bits _ _ _ _ second others =>
        cases second.shaped <;> cases others <;> try rfl
        next further => simp only [arithmetic?, bits, further]
    | _ => rfl

theorem refusalAlike (b : Builtin) (given : AllAlike X args args') :
    b.refusal args = b.refusal args' := by
  cases given with
  | nil => rfl
  | cons first others =>
    cases b with
    | div =>
      cases first.shaped <;> cases others <;> try rfl
      next second others => cases second.shaped <;> cases others <;> rfl
    | _ => rfl

end Builtin

end

end ParseKit.Script
