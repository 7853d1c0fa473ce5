import ParseKit.Proofs.Approximation
import ParseKit.Script.Application

/-! Repetition as a recursive definition: one or more are a first one with zero or more behind
it, and zero or more are one or more, or else none. Main statement: where every success shortens
a text, the loop with its list of values so far ends and changes the store as the recursion
does, be it with a value, a failure or a fault. -/
namespace ParseKit
namespace Parser
variable {σ ω α β : Type}

section
variable (p : Parser σ ω α) (nil : β) (cons : α → β → β)

def oneOrMore : (depth : Nat) → Parser σ ω β
  | 0 => fun _ => Eff.exhausted
  | depth + 1 => p.bind fun v => (alt (oneOrMore depth) (ret nil)).map (cons v)

def zeroOrMore (depth : Nat) : Parser σ ω β := alt (oneOrMore p nil cons depth) (ret nil)

theorem oneOrMoreSucc (depth : Nat) : oneOrMore p nil cons (depth + 1) =
    p.bind fun v => (zeroOrMore p nil cons depth).map (cons v) := rfl

end

theorem mapMap {γ : Type} (p : Parser σ ω α) (f : α → β) (g : β → γ) :
    (p.map f).map g = p.map fun v => g (f v) := by
  funext x
  refine (mapBind p f x _).trans (bind_congr fun o => ?_)
  cases o <;> rfl

theorem bindThenMap {γ : Type} (p : Parser σ ω α) (f : α → Parser σ ω β) (g : β → γ) :
    (p.bind f).map g = p.bind fun v => (f v).map g := by
  funext x
  refine (Eff.bindAssoc (p x) _ _).trans (bind_congr fun o => ?_)
  cases o <;> rfl

theorem altRetMap (p : Parser σ ω α) (v : α) (f : α → β) :
    (p.alt (ret v)).map f = (p.map f).alt (ret (f v)) := by
  funext x
  refine (Eff.bindAssoc (p x) _ _).trans (Eq.trans ?_ (mapBind p f x _).symm)
  refine bind_congr fun o => ?_
  cases o <;> rfl

theorem oneOrMoreFold (p : Parser σ ω α) (nil : β) (cons : α → β → β) (depth : Nat) :
    oneOrMore p nil cons depth = (oneOrMore p [] List.cons depth).map (List.foldr cons nil) := by
  induction depth with
  | zero => rfl
  | succ depth ih =>
    simp only [oneOrMoreSucc, zeroOrMore, ih, bindThenMap, altRetMap, mapMap, List.foldr_cons,
      List.foldr_nil]

theorem zeroOrMoreFold (p : Parser σ ω α) (nil : β) (cons : α → β → β) (depth : Nat) :
    zeroOrMore p nil cons depth = (zeroOrMore p [] List.cons depth).map (List.foldr cons nil) := by
  simp only [zeroOrMore, altRetMap, oneOrMoreFold p nil cons, List.foldr_nil]

theorem repeatFromRecursion (p : Parser σ ω α) (limit : Nat) (seen : List α) (x : σ) :
    repeatFrom p limit seen x = oneOrMore p [] List.cons (limit + 1) x >>= fun
      | .failure => pure (seen.reverse, x)
      | .success values rest => pure (seen.reverse ++ values, rest) := by
  -- The loop goes on from the values so far as the recursion does from none.
  induction limit generalizing seen x with
  | zero =>
    unfold repeatFrom
    refine Eq.trans (bind_congr fun o => ?_) (Eff.bindAssoc (p x) _ _).symm
    cases o <;> rfl
  | succ limit ih =>
    unfold repeatFrom
    refine Eq.trans (bind_congr fun o => ?_) (Eff.bindAssoc (p x) _ _).symm
    cases o with
    | failure => rfl
    | success v rest =>
      simp only [ih, mapBind]
      refine Eq.trans (bind_congr fun o => ?_) (Eff.bindAssoc (oneOrMore p [] _ _ rest) _ _).symm
      cases o with
      | failure =>
        simp
        rfl
      | success => simp

theorem manyRecursion (p : Parser σ ω α) (limit : Nat) :
    repeated limit 0 p = zeroOrMore p [] List.cons (limit + 1) := by
  funext x
  unfold repeated zeroOrMore alt
  rw [repeatFromRecursion, Eff.bindAssoc]
  refine bind_congr fun o => ?_
  cases o <;> rfl

theorem oneOrMoreSome (p : Parser σ ω α) (depth : Nat) (x : σ) :
    (oneOrMore p [] List.cons depth x).Gives fun o => ∀ values rest,
      o = .success values rest → values ≠ [] := by
  cases depth with
  | zero => exact .exhausted
  | succ depth =>
    refine .after fun o => ?_
    cases o with
    | failure => exact .done nofun
    | success v rest =>
      refine .after fun o => ?_
      cases o with
      | failure => exact .done nofun
      | success values rest =>
        refine .done fun all rest same => ?_
        cases same
        exact List.cons_ne_nil v values

theorem many1Recursion (p : Parser σ ω α) (limit : Nat) :
    repeated limit 1 p = oneOrMore p [] List.cons (limit + 1) := by
  funext x
  unfold repeated
  rw [repeatFromRecursion, Eff.bindAssoc]
  refine Eq.trans ((oneOrMoreSome p (limit + 1) x).congr fun o some => ?_) (Eff.bindDone _)
  cases o with
  | failure => rfl
  | success values rest =>
    have more : ¬values.length < 1 := by
      have some := List.length_pos_iff.mpr (some values rest rfl)
      omega
    change (if values.length < 1 then _ else _) = _
    rw [if_neg more]
    rfl

inductive Rounds (p : Parser σ ω α) : σ → ω → σ → ω → Prop where
  | start (x : σ) (w : ω) : Rounds p x w x w
  | next {x y z : σ} {u v w : ω} {a : α} (first : p x u = (.done (.success a y), v))
      (others : Rounds p y v z w) : Rounds p x u z w

def EachRound (p : Parser σ ω α) (x : σ) (w : ω) (holds : σ → α → σ → Prop) : Prop :=
  ∀ y v a z u, Rounds p x w y v → p y v = (.done (.success a z), u) → holds y a z

theorem EachRound.next {p : Parser σ ω α} {x y : σ} {w v : ω} {holds : σ → α → σ → Prop} {a : α}
    (each : EachRound p x w holds) (first : p x w = (.done (.success a y), v)) :
    EachRound p y v holds := fun _ _ _ _ _ others =>
  each _ _ _ _ _ (.next first others)

theorem EachRound.keeping {p : Parser σ ω α} {x : σ} {w : ω} {holds : σ → α → σ → Prop}
    (kept : σ → Prop) (first : kept x)
    (step : ∀ y v a z u, kept y → p y v = (.done (.success a z), u) → holds y a z ∧ kept z) :
    EachRound p x w holds := by
  intro y v a z u rounds run
  induction rounds with
  | start y v => exact (step y v a z u first run).1
  | next head _ ih => exact ih (step _ _ _ _ _ first head).2 run

def Shortens (size : σ → Nat) (p : Parser σ ω α) (x : σ) (w : ω) : Prop :=
  EachRound p x w fun y _ z => size z < size y

theorem oneOrMoreDeep {size : σ → Nat} {p : Parser σ ω α} (nil : β) (cons : α → β → β) {m n : Nat}
    {x : σ} {w : ω} (shortens : Shortens size p x w) (deep : size x < m) (deeper : size x < n) :
    oneOrMore p nil cons m x w = oneOrMore p nil cons n x w := by
  induction m generalizing n x w with
  | zero => omega
  | succ m ih =>
    cases n with
    | zero => omega
    | succ n =>
      refine Eff.bindCongrAt fun o v run => ?_
      cases o with
      | failure => rfl
      | success a y =>
        have shorter := shortens _ _ _ _ _ (.start x w) run
        have same := ih (EachRound.next shortens run) (by omega) (by omega : size y < n)
        exact Eff.bindHead (Eff.bindHead same _) _

theorem zeroOrMoreDeep {size : σ → Nat} {p : Parser σ ω α} (nil : β) (cons : α → β → β)
    {m n : Nat} {x : σ} {w : ω} (shortens : Shortens size p x w) (deep : size x < m)
    (deeper : size x < n) : zeroOrMore p nil cons m x w = zeroOrMore p nil cons n x w :=
  Eff.bindHead (oneOrMoreDeep nil cons shortens deep deeper) _

theorem oneOrMoreRounds {p : Parser σ ω α} {good : α → Prop} {depth : Nat} {x rest : σ} {w v : ω}
    {values : List α} (each : EachRound p x w fun _ a _ => good a)
    (run : oneOrMore p [] List.cons depth x w = (.done (.success values rest), v)) :
    ∀ a ∈ values, good a := by
  induction depth generalizing x w values with
  | zero => cases run
  | succ depth ih =>
    obtain ⟨o, u, first, run⟩ := Eff.bindDoneIff.mp run
    cases o with
    | failure => cases run
    | success a y =>
      have held := each _ _ _ _ _ (.start x w) first
      obtain ⟨o, t, others, run⟩ := Eff.bindDoneIff.mp run
      obtain ⟨o', s, more, others⟩ := Eff.bindDoneIff.mp others
      cases o' with
      | failure =>
        cases others
        cases run
        simpa using held
      | success as z =>
        cases others
        cases run
        exact List.forall_mem_cons.mpr ⟨held, ih (each.next first) more⟩

theorem zeroOrMoreRounds {p : Parser σ ω α} {good : α → Prop} {depth : Nat} {x rest : σ} {w v : ω}
    {values : List α} (each : EachRound p x w fun _ a _ => good a)
    (run : zeroOrMore p [] List.cons depth x w = (.done (.success values rest), v)) :
    ∀ a ∈ values, good a := by
  obtain ⟨o, u, more, run⟩ := Eff.bindDoneIff.mp run
  cases o with
  | failure =>
    cases run
    exact List.forall_mem_nil good
  | success as y =>
    cases run
    exact oneOrMoreRounds each more

end Parser

namespace Script
open ParseKit.Parser

def Value.width : Value → Nat
  | str text => text.length
  | _ => 0

def Value.blank : Value → Value
  | success _ rest => success none rest
  | v => v

def Value.IsText (v : Value) : Prop := ∃ text, v = str text

theorem allTextsPlain (start : Nat) {vs : List Value} (texts : ∀ v ∈ vs, v.IsText) :
    allTexts start vs = .ok (vs.map Value.plain) := by
  induction vs generalizing start with
  | nil => rfl
  | cons v vs ih =>
    obtain ⟨⟨text, rfl⟩, others⟩ := List.forall_mem_cons.mp texts
    simp [allTexts, ih (start + 1) others, Except.map, Value.plain]

theorem flattenPlain (vs : List Value) :
    (vs.map Value.plain).flatten = vs.foldr (fun v joined => v.plain ++ joined) [] := by
  induction vs with
  | nil => rfl
  | cons v vs ih => rw [List.map_cons, List.flatten_cons, ih, List.foldr_cons]

theorem joinTextsPlain {ω : Type} {vs : List Value} (texts : ∀ v ∈ vs, v.IsText) :
    (joinTexts vs : Eff ω Value) =
      pure (.str (vs.foldr (fun v joined => v.plain ++ joined) [])) := by
  unfold joinTexts
  rw [allTextsPlain 0 texts, ← flattenPlain]

theorem joinedFold {p q : Parser Value Store (List Value)} {joined : Parser Value Store Text}
    {x : Value} {w : Store} (same : p x w = q x w)
    (texts : ∀ vs rest v, q x w = (.done (.success vs rest), v) → ∀ a ∈ vs, a.IsText)
    (fold : joined = q.map (List.foldr (fun v s => v.plain ++ s) [])) :
    give (p.mapM Collect.joined.apply) x w = give (joined.map .str) x w := by
  subst fold
  refine Eff.bindHead ((Eff.bindHead same _).trans ?_) _
  rw [mapMap]
  refine Eff.bindCongrAt fun o v run => ?_
  cases o with
  | failure => rfl
  | success vs rest =>
    have joins : (joinTexts vs : Run Value) = _ := joinTextsPlain (texts vs rest v run)
    simp only [Collect.apply, joins]

theorem giveDropped (p : Parser Value Store (List Value)) (x : Value) :
    give (p.mapM Collect.dropped.apply) x =
      Value.blank <$> give (p.mapM Collect.asList.apply) x := by
  unfold give mapM
  simp only [map_eq_pure_bind, bind_assoc]
  refine bind_congr fun o => ?_
  cases o <;> rfl

theorem repetitionIsRecursion {limit depth : Nat} {p : Value} {text : Text} {w : Store}
    (shortens : Shortens Value.width (read (apply limit) p) (.str text) w)
    (enough : text.length ≤ limit) (deep : text.length < depth) (mark : Mark) :
    let once := read (apply limit) p
    let run := fun least collect =>
      apply (limit + 1) (.parser mark (.repeated least collect p)) (.str text) w
    run 0 .asList = give ((zeroOrMore once [] List.cons depth).map .list) (.str text) w ∧
    run 1 .asList = give ((oneOrMore once [] List.cons depth).map .list) (.str text) w ∧
    (EachRound once (.str text) w (fun _ v _ => v.IsText) →
      run 0 .joined =
        give ((zeroOrMore once [] (fun v joined => v.plain ++ joined) depth).map .str) (.str text) w ∧
      run 1 .joined =
        give ((oneOrMore once [] (fun v joined => v.plain ++ joined) depth).map .str) (.str text) w) ∧
    run 0 .dropped = (Value.blank <$>
      apply (limit + 1) (.parser mark (.repeated 0 .asList p)) (.str text)) w := by
  intro once run
  have enough : Value.width (.str text) < limit + 1 := Nat.lt_succ_of_le enough
  have many : repeated limit 0 once (.str text) w =
      zeroOrMore once [] List.cons depth (.str text) w := by
    rw [manyRecursion]
    exact zeroOrMoreDeep [] List.cons shortens enough deep
  have many1 : repeated limit 1 once (.str text) w =
      oneOrMore once [] List.cons depth (.str text) w := by
    rw [many1Recursion]
    exact oneOrMoreDeep [] List.cons shortens enough deep
  refine ⟨Eff.bindHead (Eff.bindHead many _) _, Eff.bindHead (Eff.bindHead many1 _) _,
    fun texts => ⟨?_, ?_⟩, congrFun (giveDropped _ _) w⟩
  · exact joinedFold many (fun vs rest v ended => zeroOrMoreRounds texts ended)
      (zeroOrMoreFold once _ _ depth)
  · exact joinedFold many1 (fun vs rest v ended => oneOrMoreRounds texts ended)
      (oneOrMoreFold once _ _ depth)

def noisy : Value := .parser (.made 0) (.map Atom.item.value (.builtin .log))

theorem noisyTakes (limit : Nat) (text : Text) (v : Store) (a z : Value) (u : Store)
    (run : read (apply limit) noisy (.str text) v = (.done (.success a z), u)) :
    ∃ c rest, text = c :: rest ∧ a = .str [c] ∧ z = .str rest := by
  match limit with
  | 0 => cases run
  | 1 => cases run
  | limit + 2 =>
    cases text with
    | nil => cases run
    | cons c rest =>
      cases run
      exact ⟨c, rest, rfl, rfl, rfl⟩

theorem noisyRounds (limit : Nat) (text : Text) (w : Store) :
    EachRound (read (apply limit) noisy) (.str text) w fun y v z =>
      z.width < y.width ∧ v.IsText := by
  refine EachRound.keeping Value.IsText ⟨text, rfl⟩ fun y v a z u kept run => ?_
  obtain ⟨text, rfl⟩ := kept
  obtain ⟨c, rest, rfl, rfl, rfl⟩ := noisyTakes limit text v a z u run
  exact ⟨⟨Nat.lt_succ_self _, [c], rfl⟩, rest, rfl⟩

theorem noisyRecursion :
    let once := read (apply 5) noisy
    let run := fun least collect =>
      apply 6 (.parser (.made 1) (.repeated least collect noisy)) (.str ['a', 'b']) .empty
    run 0 .asList = give ((zeroOrMore once [] List.cons 3).map .list) (.str ['a', 'b']) .empty ∧
    run 1 .joined =
      give ((oneOrMore once [] (fun v joined => v.plain ++ joined) 3).map .str) (.str ['a', 'b'])
        .empty ∧
    (run 1 .joined).1 = .done (.success (.str ['a', 'b']) (.str [])) := by
  have rounds := noisyRounds 5 ['a', 'b'] .empty
  have shortens : Shortens Value.width (read (apply 5) noisy) (.str ['a', 'b']) .empty :=
    fun y v a z u others run => (rounds y v a z u others run).1
  have texts : EachRound (read (apply 5) noisy) (.str ['a', 'b']) .empty fun _ v _ => v.IsText :=
    fun y v a z u others run => (rounds y v a z u others run).2
  obtain ⟨many, -, joined, -⟩ :=
    repetitionIsRecursion shortens (by decide) (by decide : _ < 3) (.made 1)
  exact ⟨many, (joined texts).2, by cbv⟩

end Script
end ParseKit
