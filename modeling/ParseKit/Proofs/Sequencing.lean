import ParseKit.Proofs.Block.Asking
import ParseKit.Proofs.Factoring

/-! Parsers in sequence, however they are written down: by operators, by functions of values, by
lists, and by blocks. All of these apply the same parsers to the same inputs in the same order, and
differ in what they make of the values. Main statement: the forms agree, with one another and with
parsers that are applied one after another. -/
namespace ParseKit.Script

def joined (vs : List Value) : Value := .str (vs.map Value.plain).flatten

namespace Calling
variable (c : Calling)

theorem keepRightAgrees (mark : Mark) (a b x : Value) :
    Agree (c.called (.parser mark (.keepRight a b)) x)
      ((c.taken a x).bind (afterwards fun _ rest => c.called b rest)) :=
  .later fun limit => (c.applies limit mark (.keepRight a b) x).trans
    (bind_congr fun o => by cases o <;> rfl)

theorem keepLeftAgrees (mark i : Mark) (a : Value) (g : Grammar) (x : Value) :
    Agree (c.called (.parser mark (.keepLeft a (.parser i g))) x)
      (outcomeOf ((c.taken a x).bind <| onward fun v rest =>
        (c.taken (.parser i g) rest).bind <| onward fun _ left => .ret (.success v left))) := by
  refine .later fun limit => (c.applies limit mark (.keepLeft a (.parser i g)) x).trans ?_
  refine congrArg (· >>= _) (bind_congr fun o => ?_)
  cases o with
  | failure => rfl
  | success v rest => exact bind_congr fun o => by cases o <;> rfl

theorem betweenAgrees (mark i j : Mark) (a : Value) (g h : Grammar) (x : Value) :
    Agree (c.called (.parser mark (.between a (.parser i g) (.parser j h))) x)
      (outcomeOf ((c.taken a x).bind <| onward fun _ mid =>
        (c.taken (.parser j h) mid).bind <| onward fun v rest =>
          (c.taken (.parser i g) rest).bind <| onward fun _ left => .ret (.success v left))) := by
  refine .later fun limit =>
    (c.applies limit mark (.between a (.parser i g) (.parser j h)) x).trans ?_
  refine congrArg (· >>= _) (bind_congr fun o => ?_)
  cases o with
  | failure => rfl
  | success _ mid =>
    refine bind_congr fun o => ?_
    cases o with
    | failure => rfl
    | success v rest => exact bind_congr fun o => by cases o <;> rfl

theorem optionalAgrees (mark : Mark) (p x : Value) :
    Agree (c.called (.parser mark (.optional p)) x) ((c.taken p x).bind fun
      | .failure => .ret (.success .none x)
      | .success _ rest => .ret (.success .none rest)) := by
  refine .later fun limit => (c.applies limit mark (.optional p) x).trans ?_
  refine (Eff.bindAssoc _ _ _).trans ((Eff.bindAssoc _ _ _).trans ?_)
  refine (Eff.bindAssoc _ _ _).trans (bind_congr fun o => ?_)
  cases o <;> rfl

theorem optionAgrees (mark : Mark) (default p x : Value) :
    Agree (c.called (.parser mark (.option default p)) x)
      ((c.called p x).bind fun r => .ret (if r.truth then r else .success default x)) := by
  refine .later fun limit => (c.applies limit mark (.option default p) x).trans ?_
  refine bind_congr fun r => ?_
  dsimp only
  split <;> rfl

section
variable {c} {p a b x : Value}

theorem viewsAlike {view : Value → Except Fault (Outcome Value Value)}
    (back : ∀ o, view (Value.ofOutcome o) = .ok o) (outcomes : c.GivesOutcomes p) (x : Value) :
    Agree (c.viewed view p x) (c.taken p x) := by
  refine .given (outcomes x) fun r outcome => ?_
  obtain ⟨o, reads, rfl, -⟩ := outcomeBack outcome
  rw [viewRet (back o), viewRet reads]
  exact .refl _

theorem takenBack (outcomes : c.GivesOutcomes p) (x : Value) :
    Agree (outcomeOf (c.taken p x)) (c.called p x) := by
  rw [outcomeOf, taken, Running.bindAssoc]
  refine .unit (outcomes x) fun r outcome => ?_
  obtain ⟨o, reads, rfl, -⟩ := outcomeBack outcome
  rw [viewRet reads]
  exact .refl _

theorem pairGives (first : c.GivesOutcomes a) (mark : Mark) (b x : Value) :
    Agree (c.called (.parser mark (.pair a b)) x)
      (outcomeOf ((c.taken a x).bind <| onward fun v rest =>
        (c.taken b rest).bind <| onward fun w left => .ret (.success (.tuple [v, w]) left))) :=
  (c.pairAgrees mark a b x).trans (((viewsAlike (outcomeIsRead "remaining") first x).head _).head _)

theorem pairTaken (first : c.GivesOutcomes a) (mark : Mark) (b x : Value) :
    Agree (c.taken (.parser mark (.pair a b)) x) ((c.taken a x).bind <| onward fun v rest =>
      (c.taken b rest).bind <| onward fun w left => .ret (.success (.tuple [v, w]) left)) :=
  viewedOf (outcomeIsRead "value") (pairGives first mark b x)

theorem mappedSilent {k u t : Value} (gives : Agree (c.called k u) (.ret t)) (left : Value) :
    Agree (c.mapped k u left) (.ret (.success t left)) := gives.head _

theorem continuedSilent {S : Sameness} {f v q : Value} {w v' : Store} (silent : c.Silent S f v q)
    (same : S.same w v') (rest : Value) :
    S.Alike (c.continued f v rest) w (c.called q rest) v' := by
  obtain ⟨q', u, called, same', used⟩ := silent w
  exact .trans (.behind called _) (used rest u v' (S.stores.trans (S.stores.symm same') same))

theorem mapIsBind {S : Sameness} {f h r : Value}
    (rets : ∀ u, ∃ i, c.Silent S r u (.parser i (.ret u)))
    (composite : ∀ v, Agree (c.called h v) ((c.called f v).bind (c.called r))) (i j : Mark)
    (w : Store) : S.Alike (c.called (.parser i (.map p f)) x) w
      (c.called (.parser j (.bind p h)) x) w := by
  refine .trans (.ofAgree (c.mapAgrees i p f x) w)
    (.trans ?_ (Sameness.Alike.ofAgree (c.bindAgrees j p h x) w).symm)
  rw [sequenced, taken, Running.bindAssoc, Running.bindAssoc]
  refine .tail _ w fun s u _ => ?_
  cases reads : s.outcome "value" with
  | error fault => exact .ofAgree (.refl _) u
  | ok o =>
    cases o with
    | failure => exact .ofAgree (.refl _) u
    | success v rest =>
      have split := (composite v).head fun q => c.called q rest
      rw [Running.bindAssoc] at split
      refine .trans ?_ (Sameness.Alike.ofAgree split u).symm
      refine .tail _ u fun t u' _ => ?_
      obtain ⟨k, silent⟩ := rets t
      exact (Sameness.Alike.ofAgree (c.retAgrees k t rest) u').symm.trans
        (continuedSilent silent (S.stores.refl u') rest).symm

theorem pairIsBind {S : Sameness} {h : Value} (first : c.GivesOutcomes a)
    (pairs : ∀ v, ∃ i k, c.Silent S h v (.parser i (.map b k)) ∧
      ∀ u, Agree (c.called k u) (.ret (.tuple [v, u]))) (i j : Mark) (w : Store) :
    S.Alike (c.called (.parser i (.pair a b)) x) w (c.called (.parser j (.bind a h)) x) w := by
  refine .trans (.ofAgree (pairGives first i b x) w)
    (.trans ?_ (Sameness.Alike.ofAgree (c.bindAgrees j a h x) w).symm)
  rw [sequenced, outcomeOf, taken, Running.bindAssoc, Running.bindAssoc, Running.bindAssoc]
  refine .tail _ w fun s u _ => ?_
  cases reads : s.outcome "value" with
  | error fault => exact .ofAgree (.refl _) u
  | ok o =>
    cases o with
    | failure => exact .ofAgree (.refl _) u
    | success v rest =>
      obtain ⟨m, k, silent, gives⟩ := pairs v
      refine .trans (.ofAgree ?_ u) (continuedSilent silent (S.stores.refl u) rest).symm
      refine .trans ?_ (c.mapAgrees m b k rest).symm
      change Agree (outcomeOf ((c.taken b rest).bind (onward _))) _
      rw [outcomeOf, Running.bindAssoc]
      refine .tail _ fun o => ?_
      cases o with
      | failure => exact .refl _
      | success t left => exact (mappedSilent (gives t) left).symm

theorem rightOfPair {s : Value} (first : c.GivesOutcomes a) (second : c.GivesOutcomes b)
    (right : ∀ v u, Agree (c.called s (.tuple [v, u])) (.ret u)) (i j k : Mark) :
    Agree (c.called (.parser i (.keepRight a b)) x)
      (c.called (.parser j (.map (.parser k (.pair a b)) s)) x) := by
  refine (c.keepRightAgrees i a b x).trans (.symm ((c.mapAgrees j _ s x).trans ?_))
  refine ((pairTaken first k b x).head _).trans ?_
  rw [Running.bindAssoc]
  refine .tail _ fun o => ?_
  cases o with
  | failure => exact .refl _
  | success v rest =>
    refine .trans ?_ (takenBack second rest)
    simp only [onward, Running.bindAssoc]
    refine .tail _ fun o => ?_
    cases o with
    | failure => exact .refl _
    | success u left => exact mappedSilent (right v u) left

theorem leftOfPair {s : Value} (first : c.GivesOutcomes a) {m : Mark} {g : Grammar}
    (left : ∀ v u, Agree (c.called s (.tuple [v, u])) (.ret v)) (i j k : Mark) :
    Agree (c.called (.parser i (.keepLeft a (.parser m g))) x)
      (c.called (.parser j (.map (.parser k (.pair a (.parser m g))) s)) x) := by
  refine (c.keepLeftAgrees i m a g x).trans (.symm ((c.mapAgrees j _ s x).trans ?_))
  refine ((pairTaken first k _ x).head _).trans ?_
  simp only [outcomeOf, Running.bindAssoc]
  refine .tail _ fun o => ?_
  cases o with
  | failure => exact .refl _
  | success v rest =>
    simp only [onward, Running.bindAssoc]
    refine .tail _ fun o => ?_
    cases o with
    | failure => exact .refl _
    | success u last => exact mappedSilent (left v u) last

theorem betweenIsKept {i j : Mark} {g h : Grammar} (m k l : Mark) :
    Agree (c.called (.parser m (.between a (.parser i g) (.parser j h))) x)
      (c.called (.parser k (.keepLeft (.parser l (.keepRight a (.parser j h)))
        (.parser i g))) x) := by
  refine (c.betweenAgrees m i j a g h x).trans (.symm ((c.keepLeftAgrees k i _ g x).trans ?_))
  refine ((((c.keepRightAgrees l a _ x).head _).head _).head _).trans ?_
  simp only [outcomeOf, Running.bindAssoc]
  refine .tail _ fun o => ?_
  cases o with
  | failure => exact .refl _
  | success _ mid =>
    simp only [afterwards, onward, taken, Running.bindAssoc]
    exact .refl _

theorem optionalIsOption {h : Value} (drops : ∀ v, Agree (c.called h v) (.ret .none))
    (i j k : Mark) :
    Agree (c.called (.parser i (.optional p)) x)
      (c.called (.parser j (.option .none (.parser k (.map p h)))) x) := by
  refine (c.optionalAgrees i p x).trans (.symm ((c.optionAgrees j .none _ x).trans ?_))
  refine ((c.mapAgrees k p h x).head _).trans ?_
  rw [Running.bindAssoc]
  refine .tail _ fun o => ?_
  cases o with
  | failure => exact .refl _
  | success v rest =>
    rw [afterwards, mapped, Running.bindAssoc]
    exact (drops v).head _

theorem inTurnReplicate (n : Nat) (p x : Value) :
    c.inTurn (List.replicate n p) x = counts (c.taken p) n x := by
  induction n generalizing x with
  | zero => rfl
  | succ n ih =>
    rw [List.replicate_succ, inTurn, counts]
    simp only [ih]

theorem inTurnFrom (limit : Nat) (seen ps : List Value) (x : Value) :
    Parser.sequenceFrom seen (ps.map (read (applyBy (c.call limit)))) x =
      ((c.inTurn ps x).bind <| onward fun vs left =>
        .ret (.success (seen.reverse ++ vs) left)).within limit := by
  induction ps generalizing seen x with
  | nil =>
    rw [inTurn, Running.retBind, onward, List.append_nil]
    rfl
  | cons p ps ih =>
    rw [inTurn, onwardBind]
    refine bind_congr fun o => ?_
    cases o with
    | failure => rfl
    | success v rest =>
      refine (ih (v :: seen) rest).trans ?_
      simp only [onward, onwardBind, List.reverse_cons, List.append_assoc]
      rfl

def joining : Outcome Value (List Value) → Running Value
  | .failure => .ret .failure
  | .success vs left => (Running.always (joinTexts vs)).bind fun v => .ret (.success v left)

theorem sequenceTextAgrees (mark : Mark) (ps : List Value) (x : Value) :
    Agree (c.called (.parser mark (.sequenceText ps)) x) ((c.inTurn ps x).bind joining) := by
  refine .later fun limit => (c.applies limit mark (.sequenceText ps) x).trans ?_
  refine (Eff.bindAssoc _ _ _).trans ((congrArg (· >>= _) (inTurnFrom limit [] ps x)).trans ?_)
  refine (Eff.bindAssoc _ _ _).trans (bind_congr fun o => ?_)
  cases o with
  | failure => rfl
  | success vs left => exact Eff.bindAssoc _ _ _

theorem joiningTexts {vs : List Value} (texts : ∀ v ∈ vs, v.IsText) (left : Value) :
    joining (.success vs left) = .ret (.success (joined vs) left) := by
  rw [joining, joinTextsPlain texts, ← flattenPlain]
  rfl

theorem takenGives {fits good : Value → Prop} (outcomes : c.GivesOnly fits good p) {x : Value}
    (fit : fits x) (limit : Nat) : ((c.taken p x).within limit).Gives fun o =>
      ∀ v rest, o = .success v rest → good v ∧ fits rest := by
  refine (outcomes x fit limit).bind ?_
  rintro _ ⟨o, rfl, held⟩
  dsimp only
  rw [viewRet (outcomeIsRead "value" o)]
  exact .done held

theorem inTurnGives {fits good : Value → Prop} {ps : List Value}
    (outcomes : ∀ p ∈ ps, c.GivesOnly fits good p) {x : Value} (fit : fits x) (limit : Nat) :
    ((c.inTurn ps x).within limit).Gives fun o =>
      ∀ vs left, o = .success vs left → (∀ v ∈ vs, good v) ∧ fits left := by
  induction ps generalizing x with
  | nil =>
    refine .done ?_
    rintro _ _ ⟨⟩
    exact ⟨nofun, fit⟩
  | cons p ps ih =>
    obtain ⟨first, others⟩ := List.forall_mem_cons.mp outcomes
    refine (takenGives first fit limit).bind fun o held => ?_
    cases o with
    | failure => exact .done nofun
    | success v rest =>
      obtain ⟨good', fit'⟩ := held v rest rfl
      refine (ih others fit').bind fun o held' => ?_
      cases o with
      | failure => exact .done nofun
      | success vs left =>
        refine .done ?_
        rintro _ _ ⟨⟩
        obtain ⟨others', fits'⟩ := held' vs left rfl
        exact ⟨List.forall_mem_cons.mpr ⟨good', others'⟩, fits'⟩

theorem countInTurn (mark : Mark) (n : Int) (p x : Value) :
    Agree (c.called (.parser mark (.count n p)) x)
      (c.inTurnTo .list (List.replicate n.toNat p) x) := by
  refine (c.countAgrees mark n p x).trans ?_
  rw [inTurnTo, inTurnReplicate, outcomeOf, Running.bindAssoc]
  exact .tail _ fun o => by cases o <;> exact .refl _

theorem sequenceTextInTurn {fits : Value → Prop} {ps : List Value}
    (outcomes : ∀ p ∈ ps, c.GivesOnly fits Value.IsText p) {x : Value} (fit : fits x)
    (mark : Mark) :
    Agree (c.called (.parser mark (.sequenceText ps)) x) (c.inTurnTo joined ps x) := by
  refine (c.sequenceTextAgrees mark ps x).trans ?_
  rw [inTurnTo, outcomeOf, Running.bindAssoc]
  refine .given (inTurnGives outcomes fit) fun o texts => ?_
  cases o with
  | failure => exact .refl _
  | success vs left =>
    rw [joiningTexts (texts vs left rfl).1]
    exact .refl _

end

/-- Forms of sequences that agree on an input. Functions of values that are written in place may do
what does not count, such as making the parsers that they give. Blocks yield the parsers that are
meant and do nothing else. -/
structure FormsAgree (S : Sameness) (x : Value) : Prop where
  map : ∀ p f h r, (∀ u, ∃ i, c.Silent S r u (.parser i (.ret u))) →
    (∀ v, Agree (c.called h v) ((c.called f v).bind (c.called r))) → ∀ i j w,
      S.Alike (c.called (.parser i (.map p f)) x) w (c.called (.parser j (.bind p h)) x) w
  pair : ∀ a b h, c.GivesOutcomes a →
    (∀ v, ∃ i k, c.Silent S h v (.parser i (.map b k)) ∧
      ∀ u, Agree (c.called k u) (.ret (.tuple [v, u]))) → ∀ i j w,
      S.Alike (c.called (.parser i (.pair a b)) x) w (c.called (.parser j (.bind a h)) x) w
  shift : ∀ a b, a.isParser = true → b.isParser = true →
    Binary.andThen.build a b = Binary.keepRight.build a b
  right : ∀ a b second, c.GivesOutcomes a → c.GivesOutcomes b →
    (∀ v u, Agree (c.called second (.tuple [v, u])) (.ret u)) → ∀ i j k,
      Agree (c.called (.parser i (.keepRight a b)) x)
        (c.called (.parser j (.map (.parser k (.pair a b)) second)) x)
  left : ∀ a b first, c.GivesOutcomes a → b.isParser = true →
    (∀ v u, Agree (c.called first (.tuple [v, u])) (.ret v)) → ∀ i j k,
      Agree (c.called (.parser i (.keepLeft a b)) x)
        (c.called (.parser j (.map (.parser k (.pair a b)) first)) x)
  between : ∀ opening closing p, closing.isParser = true → p.isParser = true → ∀ i j k,
    Agree (c.called (.parser i (.between opening closing p)) x)
      (c.called (.parser j (.keepLeft (.parser k (.keepRight opening p)) closing)) x)
  optional : ∀ p drop, (∀ v, Agree (c.called drop v) (.ret .none)) → ∀ i j k,
    Agree (c.called (.parser i (.optional p)) x)
      (c.called (.parser j (.option .none (.parser k (.map p drop)))) x)
  count : ∀ n p i, Agree (c.called (.parser i (.count n p)) x)
    (c.inTurnTo .list (List.replicate n.toNat p) x)
  countBlock : ∀ n p env body, p.isParser = true → c.GivesOutcomes p →
    c.Asks (fun _ => True) .list (List.replicate n.toNat p) [] env [.statements body] → ∀ i j,
      Agree (c.called (.parser i (.count n p)) x) (c.called (.parser j (.block env body)) x)
  text : ∀ ps, x.IsText → (∀ p ∈ ps, c.GivesOnly Value.IsText Value.IsText p) → ∀ i,
    Agree (c.called (.parser i (.sequenceText ps)) x) (c.inTurnTo joined ps x)
  textBlock : ∀ ps env body, x.IsText → (∀ p ∈ ps, p.isParser = true) →
    (∀ p ∈ ps, c.GivesOnly Value.IsText Value.IsText p) →
    c.Asks Value.IsText joined ps [] env [.statements body] → ∀ i j,
      Agree (c.called (.parser i (.sequenceText ps)) x) (c.called (.parser j (.block env body)) x)

end Calling

/-- All forms of sequences agree: they give the same outcomes and faults, with the same events. -/
theorem sequencingFormsAgree (c : Calling) (S : Sameness) (x : Value) : c.FormsAgree S x where
  map _ _ _ _ rets composite i j w := Calling.mapIsBind rets composite i j w
  pair _ _ _ first pairs i j w := Calling.pairIsBind first pairs i j w
  shift a b first second := by
    obtain ⟨_, _, rfl⟩ := Value.parserOf first
    obtain ⟨_, _, rfl⟩ := Value.parserOf second
    rfl
  right _ _ _ first second gives i j k := Calling.rightOfPair first second gives i j k
  left a b _ first parser gives i j k := by
    obtain ⟨_, _, rfl⟩ := Value.parserOf parser
    exact Calling.leftOfPair first gives i j k
  between a b p closing parser i j k := by
    obtain ⟨_, _, rfl⟩ := Value.parserOf closing
    obtain ⟨_, _, rfl⟩ := Value.parserOf parser
    exact Calling.betweenIsKept i j k
  optional _ _ drops i j k := Calling.optionalIsOption drops i j k
  count n p i := Calling.countInTurn i n p x
  countBlock n p env body parser outcomes asks i j := by
    have parsers : ∀ q ∈ List.replicate n.toNat p, q.isParser = true := fun q inside =>
      List.eq_of_mem_replicate inside ▸ parser
    have all : ∀ q ∈ List.replicate n.toNat p, c.GivesOnly (fun _ => True) (fun _ => True) q :=
      fun q inside => List.eq_of_mem_replicate inside ▸ c.givesAny outcomes
    exact (Calling.countInTurn i n p x).trans (asks.applies parsers all j trivial).symm
  text _ isText outcomes i := Calling.sequenceTextInTurn outcomes isText i
  textBlock _ env body isText parsers outcomes asks i j :=
    (Calling.sequenceTextInTurn outcomes isText i).trans
      (asks.applies parsers outcomes j isText).symm

def pairsBehind (name : Name) (b v : Value) : Value :=
  .lambda name ["y"] (.tuple [.var "x", .var "y"]) [("b", b), ("x", v)]

def pairsWith (b : Value) : Value :=
  .lambda 7 ["x"] (.binary .map (.var "b") (.lambda ["y"] (.tuple [.var "x", .var "y"]))) [("b", b)]

theorem pairsBehindGives (name : Name) (b v u : Value) :
    Agree (Calling.script.called (pairsBehind name b v) u) (.ret (.tuple [v, u])) :=
  .later fun _ => rfl

section
variable {b : Value} (outcomes : Calling.script.GivesOutcomes b)
  (used : Calling.script.Used .butNames b b)
include outcomes used

theorem pairsBehindUsed (i j : Mark) (m n : Name) (v : Value) :
    Calling.script.Used .butNames (.parser i (.map b (pairsBehind m b v)))
      (.parser j (.map b (pairsBehind n b v))) := by
  intro y w v' same
  refine .trans (.ofAgree (Calling.script.mapAgrees i b _ y) w)
    (.trans ?_ (Sameness.Alike.ofAgree (Calling.script.mapAgrees j b _ y) v').symm)
  rw [Calling.taken, Running.bindAssoc, Running.bindAssoc]
  refine (used y w v' same).bind fun r s u u' like same' ends ends' => ?_
  obtain ⟨_, limit, run⟩ := ends
  obtain ⟨_, limit', run'⟩ := ends'
  obtain ⟨o, reads, rfl, -⟩ := Calling.outcomeBack (outcomes y limit w r u run)
  obtain ⟨o', reads', rfl, -⟩ := Calling.outcomeBack (outcomes y limit' v' s u' run')
  simp only [Calling.viewRet reads, Calling.viewRet reads', Running.retBind]
  cases o with
  | failure =>
    cases o' with
    | failure => exact .ret rfl same'
    | success => cases like
  | success a rest =>
    cases o' with
    | failure => cases like
    | success a' rest' =>
      obtain ⟨value, left⟩ := Value.success.inj like
      refine .trans (.ofAgree (Calling.mappedSilent (pairsBehindGives m b v a) rest) u) (.trans
        (.ret ?_ same') (Sameness.Alike.ofAgree
          (Calling.mappedSilent (pairsBehindGives n b v a') rest') u').symm)
      simp only [Sameness.butNames, Value.seen, Value.seenAll] at value left ⊢
      rw [value, left]

theorem pairsWithSilent (parser : b.isParser = true) (v : Value) :
    Calling.script.Silent .butNames (pairsWith b) v
      (.parser (.made 0) (.map b (pairsBehind 0 b v))) := by
  obtain ⟨m, g, rfl⟩ := Value.parserOf parser
  intro w
  let made := w.naming w.name.next
  refine ⟨.parser (.made made.name) (.map (.parser m g) (pairsBehind w.name (.parser m g) v)),
    made.naming made.name.next, ⟨nofun, 1, rfl⟩, ⟨rfl, rfl⟩, ?_⟩
  exact pairsBehindUsed outcomes used _ _ _ _ v

end

theorem Agree.gives {α : Type} {x : Running α} {a : α} (agree : Agree x (.ret a)) (limit : Nat) :
    (x.within limit).Gives (· = a) := by
  intro w b w' run
  have ends := (agree w (.done b) w').mp ⟨nofun, limit, run⟩
  cases (Running.endsOnce ends Running.endsRet).1
  rfl

theorem wordGivesText (c : Calling) (word : Mark × Text) :
    c.GivesOnly Value.IsText Value.IsText (wordParser word) := by
  rintro _ ⟨text, rfl⟩ limit
  refine ((wordAgrees c word text).gives limit).weaken ?_
  rintro _ rfl
  split
  · refine ⟨.success _ _, rfl, ?_⟩
    rintro _ _ ⟨⟩
    exact ⟨⟨_, rfl⟩, ⟨_, rfl⟩⟩
  · exact ⟨.failure, rfl, nofun⟩

theorem listResult (env : Env) (vs : List Value) (kept : env.find? "vs" = some (.list vs)) :
    Agree (Calling.script.evaluated env (.var "vs")) (.ret (.list vs)) := Calling.evaluatedVar kept

theorem joinResult (env : Env) (vs : List Value) (kept : env.find? "vs" = some (.list vs))
    (texts : ∀ v ∈ vs, v.IsText) :
    Agree (Calling.script.evaluated env (.call (.builtin .join) [.var "vs"] []))
      (.ret (joined vs)) := by
  refine .later fun limit => ?_
  simp only [Calling.evaluated, evalWith, evalAllWith, evalNamedWith, kept]
  change Builtin.join.run [.list vs] = pure (joined vs)
  simp only [Builtin.run, Builtin.compute, Builtin.arithmetic?, allTextsPlain 0 texts]
  rfl

theorem filterPlain {σ α : Type} {p : Parser σ Store α} {test : α → Run Bool}
    (head : ∀ y, Plain (p y)) (each : ∀ v, Plain (test v)) (y : σ) : Plain (p.filterM test y) :=
  (head y).bind fun o => by
    cases o with
    | failure => exact .done _
    | success v rest => exact (each v).bind fun holds => by cases holds <;> exact .done _

theorem elementPlain (y : Value) : Plain (element y) := by
  unfold element
  split
  · exact .done _
  · exact .done _
  · split
    · exact ⟨_, fun _ => rfl⟩
    · exact .done _

theorem charPlain (v y : Value) : Plain (give (charEqual v) y) := by
  refine Plain.bind ?_ fun _ => .done _
  cases y with
  | str text =>
    refine Plain.bind ?_ fun o => by cases o <;> exact .done _
    exact filterPlain (fun text => by cases text <;> exact .done _) (fun _ => .done _) text
  | _ => exact filterPlain elementPlain (fun _ => .done _) _

def makesRet : Value := .lambda 3 ["q"] (.unary .ret (.var "q")) []

def retOf (v : Value) : Value := .parser (.made 0) (.ret v)

theorem makesRetSilent (v : Value) : Calling.script.Silent .butNames makesRet v (retOf v) := fun w =>
  ⟨.parser (.made w.name) (.ret v), w.naming w.name.next, ⟨nofun, 1, rfl⟩, ⟨rfl, rfl⟩,
    Calling.usedRet (fun _ => rfl) _ _⟩

def valueA : Value := .str ['a']

def notedA : Value := .parser (.made 2) (.map charA (.builtin .log))

def twoWords : List Value := [wordParser (.made 3, ['a']), wordParser (.made 4, ['a', 'b'])]

theorem lettersInSequence :
    let twice : Value :=
      .parser (.made 5) (.block [("ps", .list [notedA, notedA])] (collecting (.var "vs")))
    let spelled : Value := .parser (.made 5) (.block [("ps", .list twoWords)]
      (collecting (.call (.builtin .join) [.var "vs"] [])))
    (∃ r u, (Calling.script.called (.parser (.made 6) (.bind charA notesRet))
      (.str ['a', 'b'])).Ends .empty (.done r) u ∧
      r.seen = .success valueA (.str ['b']) ∧ u.events = #[.note valueA]) ∧
    (∃ r u, (Calling.script.called (.parser (.made 6) (.bind notedA (pairsWith charA)))
      (.str ['a', 'a'])).Ends .empty (.done r) u ∧
      r.seen = .success (.tuple [valueA, valueA]) (.str []) ∧ u.events = #[.note valueA]) ∧
    (Calling.script.called twice (.str ['a', 'a', 'b'])).Ends .empty
      (.done (.success (.list [valueA, valueA]) (.str ['b'])))
      ⟨#[], #[.note valueA, .note valueA], 0⟩ ∧
    (Calling.script.called spelled (.str ['a', 'a', 'b', 'c'])).Ends .empty
      (.done (.success (.str ['a', 'a', 'b']) (.str ['c']))) .empty := by
  have forms := sequencingFormsAgree Calling.script .butNames
  have outcomes : Calling.script.GivesOutcomes charA := charOutcomes _ _ _
  have noting : Calling.script.GivesOutcomes notedA :=
    Calling.script.outcomesOfGive (fun _ _ _ => rfl) (.made 2)
  refine ⟨?_, ?_, ?_, ?_⟩
  · have alike := (forms (.str ['a', 'b'])).map charA (.builtin .log) notesRet makesRet
      (fun u => ⟨_, makesRetSilent u⟩) (fun v => .later fun limit => by cases limit <;> rfl)
      (.made 5) (.made 6) .empty
    obtain ⟨_, u, ends, like, same⟩ := alike.there (.done (.success valueA (.str ['b'])))
      ⟨#[], #[.note valueA], 0⟩ ⟨nofun, 3, rfl⟩
    cases like with
    | done like => exact ⟨_, u, ends, like.symm, same.2⟩
  · have alike := (forms (.str ['a', 'a'])).pair notedA charA (pairsWith charA) noting
      (fun v => ⟨_, _, pairsWithSilent outcomes
        (Calling.usedPlain (fun _ _ _ => rfl) (charPlain _) _ _)
        rfl v, pairsBehindGives 0 charA v⟩) (.made 5) (.made 6) .empty
    obtain ⟨_, u, ends, like, same⟩ := alike.there
      (.done (.success (.tuple [valueA, valueA]) (.str []))) ⟨#[], #[.note valueA], 0⟩
      ⟨nofun, 4, rfl⟩
    cases like with
    | done like => exact ⟨_, u, ends, like.symm, same.2⟩
  · refine ((forms (.str ['a', 'a', 'b'])).countBlock 2 notedA _ _ rfl noting ?_ (.made 7)
      (.made 5) _ _ _).mp ⟨nofun, 5, rfl⟩
    exact collectingAsks (fun env vs kept _ => listResult env vs kept) rfl
  · refine ((forms (.str ['a', 'a', 'b', 'c'])).textBlock twoWords _ _ ⟨_, rfl⟩ ?_ ?_ ?_ (.made 7)
      (.made 5) _ _ _).mp ⟨nofun, 3, rfl⟩
    · simp [twoWords, wordParser, Value.isParser]
    · simp [twoWords, wordGivesText]
    · exact collectingAsks joinResult rfl

end ParseKit.Script
