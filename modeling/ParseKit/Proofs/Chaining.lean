import ParseKit.Proofs.Calling
import ParseKit.Proofs.Reading
import ParseKit.Proofs.Recursion

/-! Chains of operands with operators between them. A chain goes on while an operator and an operand
follow one another, and each operator's function is called as soon as its right operand is there.
Main statement: where rounds shorten the text and raise nothing there is exactly one such chain, and
it gives the value and the rest; with one and the same function for all operators, it is the left
fold of the operands that a repetition with separators lists. -/
namespace ParseKit.Script
open Eff (Below)

namespace Running
variable {α : Type}

def never : Running α := always Eff.exhausted

theorem endsOnce {x : Running α} {w v v' : Store} {exit exit' : Exit α} (first : x.Ends w exit v)
    (second : x.Ends w exit' v') : exit = exit' ∧ v = v' := by
  obtain ⟨ended, m, run⟩ := first
  obtain ⟨ended', n, run'⟩ := second
  have left := x.grows.later (Nat.le_max_left m n) run ended
  have right := x.grows.later (Nat.le_max_right m n) run' ended'
  cases left.symm.trans right
  exact ⟨rfl, rfl⟩

theorem endsRet {a : α} {w : Store} : (ret a).Ends w (.done a) w := ⟨nofun, 0, rfl⟩

theorem endsThen {β : Type} {x : Running α} {f : α → Running β} {a : α} {w v w' : Store}
    {exit : Exit β} (head : x.Ends w (.done a) v) (tail : (f a).Ends v exit w') :
    (x.bind f).Ends w exit w' := endsBind.mpr (.inl ⟨a, v, head, tail⟩)

end Running

theorem Agree.same {α : Type} {x y : Running α} (same : ∀ limit, x.within limit = y.within limit) :
    Agree x y := fun w exit w' => by simp only [Running.Ends, same]

def Unrolls {α : Type} (x : Running α) (loop : Nat → Running α) : Prop :=
  ∀ w exit w', x.Ends w exit w' ↔ ∃ rounds, (loop rounds).Ends w exit w'

namespace Unrolls
variable {α β : Type} {x y : Running α} {loop loop' : Nat → Running α}

theorem ofLimit (same : ∀ limit, x.within (limit + 1) = (loop (limit + 1)).within limit)
    (mono : ∀ {r s}, r ≤ s → ∀ limit, Below ((loop r).within limit) ((loop s).within limit)) :
    Unrolls x loop := by
  intro w exit w'
  constructor
  · rintro ⟨ended, limit, run⟩
    have later := x.grows.later (Nat.le_succ limit) run ended
    exact ⟨limit + 1, ended, limit, same limit ▸ later⟩
  · rintro ⟨rounds, ended, limit, run⟩
    have more := (loop rounds).grows.later (Nat.le_max_left limit rounds) run ended
    have within : rounds ≤ max limit rounds + 1 := by omega
    have ends := (mono within (max limit rounds)).ends more ended
    exact ⟨ended, max limit rounds + 1, same (max limit rounds) ▸ ends⟩

theorem bind (head : Unrolls x loop) (f : α → Running β) :
    Unrolls (x.bind f) fun rounds => (loop rounds).bind f := by
  intro w exit w'
  simp only [Running.endsBind, head w]
  constructor
  · rintro (⟨a, v, ⟨rounds, first⟩, last⟩ | ⟨fault, ⟨rounds, first⟩, raised⟩)
    · exact ⟨rounds, .inl ⟨a, v, first, last⟩⟩
    · exact ⟨rounds, .inr ⟨fault, first, raised⟩⟩
  · rintro ⟨rounds, ⟨a, v, first, last⟩ | ⟨fault, first, raised⟩⟩
    · exact .inl ⟨a, v, ⟨rounds, first⟩, last⟩
    · exact .inr ⟨fault, ⟨rounds, first⟩, raised⟩

theorem agree (first : Unrolls x loop) (second : Unrolls y loop')
    (rounds : ∀ r, Agree (loop r) (loop' r)) : Agree x y := by
  intro w exit w'
  rw [first w, second w]
  exact exists_congr fun r => rounds r w exit w'

end Unrolls

abbrev Reading : Type := Value → Running (Outcome Value Value)

def Reading.within (q : Reading) (limit : Nat) : Parser Value Store Value :=
  fun x => (q x).within limit

section
variable (p op : Reading) (combine : Value → Value → Value → Running Value)

def chainRounds : (rounds : Nat) → (value x : Value) → Running (Value × Value)
  | 0, _, _ => .never
  | rounds + 1, value, x => (op x).bind fun
    | .failure => .ret (value, x)
    | .success f mid => (p mid).bind fun
      | .failure => .ret (value, x)
      | .success right rest =>
        (combine f value right).bind fun value => chainRounds rounds value rest

theorem chainRoundsFrom (limit rounds : Nat) (value x : Value) :
    (chainRounds p op combine (rounds + 1) value x).within limit =
      Parser.chainFrom (p.within limit)
        ((op.within limit).map fun f v w => (combine f v w).within limit) rounds value x := by
  unfold Parser.chainFrom
  rw [Parser.mapBind]
  refine bind_congr fun o => ?_
  cases o with
  | failure => rfl
  | success f mid =>
    refine bind_congr fun o => ?_
    cases o with
    | failure => rfl
    | success right rest =>
      refine bind_congr fun value => ?_
      cases rounds with
      | zero => rfl
      | succ rounds => exact chainRoundsFrom limit rounds value rest

theorem chainRoundsMono {r s : Nat} (le : r ≤ s) (limit : Nat) (value x : Value) :
    Below ((chainRounds p op combine r value x).within limit)
      ((chainRounds p op combine s value x).within limit) := by
  induction r generalizing s value x with
  | zero => exact .exhausted _
  | succ r ih =>
    obtain ⟨s, rfl⟩ := Nat.exists_eq_add_one_of_ne_zero (by omega : s ≠ 0)
    refine (Below.refl _).bind fun o => ?_
    cases o with
    | failure => exact .refl _
    | success f mid =>
      refine (Below.refl _).bind fun o => ?_
      cases o with
      | failure => exact .refl _
      | success right rest => exact (Below.refl _).bind fun value => ih (by omega) value rest

def repeatRounds : (rounds : Nat) → (seen : List Value) → (x : Value) → Running (List Value × Value)
  | 0, _, _ => .never
  | rounds + 1, seen, x => (p x).bind fun
    | .failure => .ret (seen.reverse, x)
    | .success v rest => repeatRounds rounds (v :: seen) rest

theorem repeatRoundsFrom (limit rounds : Nat) (seen : List Value) (x : Value) :
    (repeatRounds p (rounds + 1) seen x).within limit =
      Parser.repeatFrom (p.within limit) rounds seen x := by
  unfold Parser.repeatFrom
  refine bind_congr fun o => ?_
  cases o with
  | failure => rfl
  | success v rest =>
    cases rounds with
    | zero => rfl
    | succ rounds => exact repeatRoundsFrom limit rounds (v :: seen) rest

theorem repeatRoundsMono {r s : Nat} (le : r ≤ s) (limit : Nat) (seen : List Value) (x : Value) :
    Below ((repeatRounds p r seen x).within limit) ((repeatRounds p s seen x).within limit) := by
  induction r generalizing s seen x with
  | zero => exact .exhausted _
  | succ r ih =>
    obtain ⟨s, rfl⟩ := Nat.exists_eq_add_one_of_ne_zero (by omega : s ≠ 0)
    refine (Below.refl _).bind fun o => ?_
    cases o with
    | failure => exact .refl _
    | success v rest => exact ih (by omega) (v :: seen) rest

end

theorem repeatedBind {σ ω α β : Type} (p : Parser σ ω α) (limit : Nat) (x : σ)
    (next : Outcome σ (List α) → Eff ω β) :
    Parser.repeated limit 0 p x >>= next =
      Parser.repeatFrom p limit [] x >>= fun (vs, rest) => next (.success vs rest) := by
  refine (Eff.bindAssoc _ _ _).trans (bind_congr fun (vs, rest) => ?_)
  simp only [Nat.not_lt_zero, if_false]
  rfl

namespace Calling
variable (c : Calling)

def viewed (view : Value → Except Fault (Outcome Value Value)) (p : Value) : Reading := fun x =>
  (c.called p x).bind fun r => .always (Eff.ofExcept (view r))

theorem outcomeIsRead (part : String) (o : Outcome Value Value) :
    (Value.ofOutcome o).outcome part = .ok o := by cases o <;> rfl

theorem partsBack (o : Outcome Value Value) : (Value.ofOutcome o).outcomeByParts = .ok o := by
  cases o <;> rfl

theorem viewRet {view : Value → Except Fault (Outcome Value Value)} {o : Outcome Value Value}
    (back : view (Value.ofOutcome o) = .ok o) :
    Running.always (Eff.ofExcept (view (Value.ofOutcome o))) = .ret o := by
  rw [back]
  rfl

def combined (f v w : Value) : Running Value :=
  ⟨fun limit => c.call limit f [v, w] [], fun _ _ le => c.grows le f [v, w] []⟩

def chained (p op x : Value) (rounds : Nat) : Running Value :=
  (c.viewed Value.outcomeByParts p x).bind <| afterwards fun v rest =>
    (chainRounds (c.taken p) (c.viewed (Value.outcome "remaining") op) c.combined rounds v
      rest).bind fun (value, left) => .ret (.success value left)

theorem chainUnrolls (mark : Mark) (p op x : Value) :
    Unrolls (c.called (.parser mark (.chainl1 p op)) x) (c.chained p op x) := by
  refine .ofLimit (fun limit => ?_) fun le limit => ?_
  · refine (c.applies limit mark (.chainl1 p op) x).trans ?_
    refine (Eff.bindAssoc _ _ _).trans (bind_congr fun o => ?_)
    cases o with
    | failure => rfl
    | success v rest =>
      have loop := chainRoundsFrom (c.taken p) (c.viewed (Value.outcome "remaining") op) c.combined
        limit limit v rest
      exact (Eff.bindAssoc _ _ _).trans (congrArg (· >>= _) loop.symm)
  · refine (Below.refl _).bind fun o => ?_
    cases o with
    | failure => exact .refl _
    | success v rest => exact (chainRoundsMono _ _ _ le limit v rest).bind fun _ => .refl _

def further (p sep : Value) : Reading := fun x => (c.taken sep x).bind fun
  | .failure => .ret .failure
  | .success _ mid => c.taken p mid

def separated (p sep x : Value) (rounds : Nat) : Running Value :=
  (c.taken p x).bind <| afterwards fun v rest =>
    (repeatRounds (c.further p sep) rounds [] rest).bind fun (vs, left) =>
      .ret (.success (.list (v :: vs)) left)

theorem separatedUnrolls (mark i : Mark) (p x : Value) (g : Grammar) :
    Unrolls (c.called (.parser mark (.sepBy1 p (.parser i g))) x) (c.separated p (.parser i g) x) := by
  refine .ofLimit (fun limit => ?_) fun le limit => ?_
  · refine (c.applies limit mark (.sepBy1 p (.parser i g)) x).trans ?_
    simp only [Grammar.applyWith, give]
    rw [Parser.mapBind]
    refine (Eff.bindAssoc _ _ _).trans (bind_congr fun o => ?_)
    cases o with
    | failure => rfl
    | success v rest =>
      have loop := repeatRoundsFrom (c.further p (.parser i g)) limit limit [] rest
      have same : (c.further p (.parser i g)).within limit =
          (read (applyBy (c.call limit)) (.parser i g)).keepRight
            (read (applyBy (c.call limit)) p) := by
        funext y
        exact bind_congr fun o => by cases o <;> rfl
      rw [same] at loop
      refine (Eff.bindAssoc _ _ _).trans ((repeatedBind _ limit rest _).trans ?_)
      exact congrArg (· >>= _) loop.symm
  · refine (Below.refl _).bind fun o => ?_
    cases o with
    | failure => exact .refl _
    | success v rest => exact (repeatRoundsMono _ le limit [] rest).bind fun _ => .refl _

def mapped (h v rest : Value) : Running Value :=
  (c.called h v).bind fun u => .ret (.success u rest)

theorem mapAgrees (mark : Mark) (q h x : Value) :
    Agree (c.called (.parser mark (.map q h)) x)
      ((c.taken q x).bind (afterwards (c.mapped h))) := by
  refine .later fun limit => (c.applies limit mark (.map q h) x).trans ?_
  refine (Eff.bindAssoc _ _ _).trans (bind_congr fun o => ?_)
  cases o with
  | failure => rfl
  | success v rest => exact Eff.bindAssoc _ _ _

section
variable {c} {p sep f k h : Value} {g : Value → Value → Value}

theorem operatorAgrees (constant : ∀ v, Agree (c.called k v) (.ret f)) (mark : Mark) (x : Value) :
    Agree (c.viewed (Value.outcome "remaining") (.parser mark (.map sep k)) x)
      ((c.taken sep x).bind fun
        | .failure => .ret .failure
        | .success _ mid => .ret (.success f mid)) := by
  refine ((c.mapAgrees mark sep k x).head _).trans ?_
  rw [Running.bindAssoc]
  refine .tail _ fun o => ?_
  cases o with
  | failure => exact .refl _
  | success v mid =>
    simp only [afterwards, mapped, Running.bindAssoc]
    exact (constant v).head _

theorem chainRoundsFold (constant : ∀ v, Agree (c.called k v) (.ret f))
    (silent : ∀ v w, Agree (c.combined f v w) (.ret (g v w))) (mark : Mark) (first : Value)
    (rounds : Nat) (seen : List Value) (x : Value) :
    Agree
      (chainRounds (c.taken p) (c.viewed (Value.outcome "remaining") (.parser mark (.map sep k)))
        c.combined rounds (seen.reverse.foldl g first) x)
      ((repeatRounds (c.further p sep) rounds seen x).bind fun (vs, left) =>
        .ret (vs.foldl g first, left)) := by
  induction rounds generalizing seen x with
  | zero => exact .refl _
  | succ rounds ih =>
    refine ((operatorAgrees constant mark x).head _).trans ?_
    simp only [repeatRounds, further, Running.bindAssoc]
    refine .tail _ fun o => ?_
    cases o with
    | failure => exact .refl _
    | success v mid =>
      simp only [Running.retBind]
      refine .tail _ fun o => ?_
      cases o with
      | failure => exact .refl _
      | success right rest =>
        refine ((silent (seen.reverse.foldl g first) right).head _).trans ?_
        have next := ih (right :: seen) rest
        rwa [List.reverse_cons, List.foldl_append] at next

theorem chainFolds (outcomes : c.GivesOutcomes p) {i : Mark} {s : Grammar}
    (constant : ∀ v, Agree (c.called k v) (.ret f))
    (silent : ∀ v w, Agree (c.combined f v w) (.ret (g v w)))
    (fold : ∀ v vs, Agree (c.called h (.list (v :: vs))) (.ret (vs.foldl g v)))
    (m₁ m₂ m₃ m₄ : Mark) (x : Value) :
    Agree (c.called (.parser m₁ (.chainl1 p (.parser m₂ (.map (.parser i s) k)))) x)
      (c.called (.parser m₃ (.map (.parser m₄ (.sepBy1 p (.parser i s))) h)) x) := by
  refine .trans ?_ (c.mapAgrees m₃ _ h x).symm
  refine (c.chainUnrolls m₁ p _ x).agree
    (((c.separatedUnrolls m₄ i p x s).bind _).bind _) fun rounds => ?_
  simp only [chained, separated, viewed, taken, Running.bindAssoc]
  refine .given (outcomes x) fun r outcome => ?_
  obtain ⟨o, _, rfl, -⟩ := outcomeBack outcome
  simp only [viewRet (partsBack o), viewRet (outcomeIsRead "value" o), Running.retBind]
  cases o with
  | failure =>
    simp only [afterwards, Running.retBind]
    exact .refl _
  | success v rest =>
    refine ((chainRoundsFold constant silent m₂ v rounds [] rest).head _).trans ?_
    simp only [afterwards, Running.bindAssoc]
    refine .tail _ fun listed => ?_
    exact (fold v listed.1).symm.head fun u => Running.ret (Value.success u listed.2)

end

def Applied (p x : Value) (w : Store) (o : Outcome Value Value) (w' : Store) : Prop :=
  (c.called p x).Ends w (.done (.ofOutcome o)) w'

/-- Successes of the operator and the operand in turn, from a first value on. The function of each
operator is called with the value so far and the operand behind it. -/
inductive Chain (p op : Value) : (value x : Value) → Store → (links : List (Value × Value)) →
    (last left : Value) → Store → Prop where
  | stop (value x : Value) (w : Store) : Chain p op value x w [] value x w
  | link {value x f mid right rest next last left : Value} {w w₁ w₂ w₃ w' : Store}
      {links : List (Value × Value)} (operator : c.Applied op x w (.success f mid) w₁)
      (operand : c.Applied p mid w₁ (.success right rest) w₂)
      (combines : (c.combined f value right).Ends w₂ (.done next) w₃)
      (others : Chain p op next rest w₃ links last left w') :
      Chain p op value x w ((f, right) :: links) last left w'

inductive Stops (p op x : Value) (w w' : Store) : Prop where
  | operator (fails : c.Applied op x w .failure w')
  | operand {f mid : Value} {v : Store} (operator : c.Applied op x w (.success f mid) v)
      (fails : c.Applied p mid v .failure w')

def Complete (p op value x : Value) (w : Store) (links : List (Value × Value)) (last left : Value)
    (w' : Store) : Prop :=
  ∃ v, c.Chain p op value x w links last left v ∧ c.Stops p op left v w'

structure Turn (p op value x : Value) (w : Store) : Prop where
  operator : ∃ o w', c.Applied op x w o w'
  operand : ∀ f mid v, c.Applied op x w (.success f mid) v → ∃ o w', c.Applied p mid v o w'
  link : ∀ f mid v right rest u, c.Applied op x w (.success f mid) v →
    c.Applied p mid v (.success right rest) u →
      rest.width < x.width ∧ ∃ next w', (c.combined f value right).Ends u (.done next) w'

def Turns (p op value x : Value) (w : Store) : Prop :=
  ∀ links next rest w', c.Chain p op value x w links next rest w' → c.Turn p op next rest w'

section
variable {c} {p op value x : Value} {w : Store}

theorem Applied.once {q : Value} {o o' : Outcome Value Value} {v v' : Store}
    (first : c.Applied q x w o v) (second : c.Applied q x w o' v') : o = o' ∧ v = v' := by
  obtain ⟨same, rfl⟩ := Running.endsOnce first second
  cases o <;> cases o' <;> cases same <;> exact ⟨rfl, rfl⟩

theorem Applied.viewed {view : Value → Except Fault (Outcome Value Value)} {q : Value}
    {o : Outcome Value Value} {v : Store} (applied : c.Applied q x w o v)
    (back : view (Value.ofOutcome o) = .ok o) : (c.viewed view q x).Ends w (.done o) v := by
  refine Running.endsThen applied ?_
  rw [viewRet back]
  exact Running.endsRet

theorem Applied.taken {q : Value} {o : Outcome Value Value} {v : Store}
    (applied : c.Applied q x w o v) : (c.taken q x).Ends w (.done o) v :=
  applied.viewed (outcomeIsRead "value" o)

theorem Chain.runs {links : List (Value × Value)} {last left : Value} {v w' : Store}
    (chain : c.Chain p op value x w links last left v) (stops : c.Stops p op left v w') :
    (chainRounds (c.taken p) (c.viewed (Value.outcome "remaining") op) c.combined
      (links.length + 1) value x).Ends w (.done (last, left)) w' := by
  induction chain with
  | stop value x w =>
    cases stops with
    | operator fails =>
      exact Running.endsThen (fails.viewed (outcomeIsRead "remaining" _)) Running.endsRet
    | operand operator fails =>
      exact Running.endsThen (operator.viewed (outcomeIsRead "remaining" _))
        (Running.endsThen fails.taken Running.endsRet)
  | link operator operand combines _ ih =>
    exact Running.endsThen (operator.viewed (outcomeIsRead "remaining" _))
      (Running.endsThen operand.taken (Running.endsThen combines (ih stops)))

theorem Turns.behind {f mid right rest next : Value} {w₁ w₂ w₃ : Store}
    (turns : c.Turns p op value x w) (operator : c.Applied op x w (.success f mid) w₁)
    (operand : c.Applied p mid w₁ (.success right rest) w₂)
    (combines : (c.combined f value right).Ends w₂ (.done next) w₃) :
    c.Turns p op next rest w₃ := fun _ _ _ _ chain =>
  turns _ _ _ _ (.link operator operand combines chain)

theorem Turns.complete (turns : c.Turns p op value x w) :
    ∃ links last left w', c.Complete p op value x w links last left w' := by
  induction size : x.width using Nat.strongRecOn generalizing value x w with
  | ind n ih =>
    have turn := turns _ _ _ _ (.stop value x w)
    obtain ⟨o, w₁, operator⟩ := turn.operator
    cases o with
    | failure => exact ⟨[], value, x, w₁, w, .stop value x w, .operator operator⟩
    | success f mid =>
      obtain ⟨o, w₂, operand⟩ := turn.operand f mid w₁ operator
      cases o with
      | failure => exact ⟨[], value, x, w₂, w, .stop value x w, .operand operator operand⟩
      | success right rest =>
        obtain ⟨shorter, next, w₃, combines⟩ := turn.link _ _ _ _ _ _ operator operand
        obtain ⟨links, last, left, w', v, others, stops⟩ :=
          ih rest.width (size ▸ shorter) (turns.behind operator operand combines) rfl
        exact ⟨_, last, left, w', v, .link operator operand combines others, stops⟩

theorem Stops.noLink {f mid right rest : Value} {w₁ w₂ w' : Store} (stops : c.Stops p op x w w')
    (operator : c.Applied op x w (.success f mid) w₁)
    (operand : c.Applied p mid w₁ (.success right rest) w₂) : False := by
  cases stops with
  | operator fails => cases (fails.once operator).1
  | operand other fails =>
    obtain ⟨same, rfl⟩ := other.once operator
    cases same
    cases (fails.once operand).1

theorem Stops.once {v v' : Store} (first : c.Stops p op x w v) (second : c.Stops p op x w v') :
    v = v' := by
  cases first with
  | operator fails =>
    cases second with
    | operator fails' => exact (fails.once fails').2
    | operand operator _ => cases (fails.once operator).1
  | operand operator fails =>
    cases second with
    | operator fails' => cases (fails'.once operator).1
    | operand operator' fails' =>
      obtain ⟨same, rfl⟩ := operator.once operator'
      cases same
      exact (fails.once fails').2

theorem Chain.once {links links' : List (Value × Value)} {last last' left left' : Value}
    {v v' u u' : Store} (first : c.Chain p op value x w links last left v)
    (stops : c.Stops p op left v u) (second : c.Chain p op value x w links' last' left' v')
    (stops' : c.Stops p op left' v' u') :
    links' = links ∧ last' = last ∧ left' = left ∧ v' = v ∧ u' = u := by
  induction first generalizing links' with
  | stop value x w =>
    cases second with
    | stop => exact ⟨rfl, rfl, rfl, rfl, stops'.once stops⟩
    | link operator operand _ _ => exact (stops.noLink operator operand).elim
  | link operator operand combines _ ih =>
    cases second with
    | stop => exact (stops'.noLink operator operand).elim
    | link operator' operand' combines' others =>
      obtain ⟨same, rfl⟩ := operator'.once operator
      cases same
      obtain ⟨same, rfl⟩ := operand'.once operand
      cases same
      obtain ⟨same, rfl⟩ := Running.endsOnce combines' combines
      cases same
      obtain ⟨rfl, others⟩ := ih stops others
      exact ⟨rfl, others⟩

theorem Chain.fold {links : List (Value × Value)} {last left : Value} {v : Store}
    {g : Value → Value → Value → Value} (chain : c.Chain p op value x w links last left v)
    (silent : ∀ link ∈ links, ∀ a b, Agree (c.combined link.1 a b) (.ret (g link.1 a b))) :
    last = links.foldl (fun value link => g link.1 value link.2) value := by
  induction chain with
  | stop => rfl
  | link _ _ combines _ ih =>
    obtain ⟨first, others⟩ := List.forall_mem_cons.mp silent
    obtain ⟨same, -⟩ := Running.endsOnce combines ((first _ _ _ _ _).mpr Running.endsRet)
    cases same
    exact ih others

end

/-- The chain fails with its first operand only. Otherwise there is one way to go on from it as far
as operators with operands come, and that gives the value, the rest and the store. -/
structure LeftFold (mark : Mark) (p op x : Value) (w : Store) : Prop where
  fails : ∀ w', c.Applied (.parser mark (.chainl1 p op)) x w .failure w' ↔
    c.Applied p x w .failure w'
  folds : ∀ v rest u, c.Applied p x w (.success v rest) u → ∃ links last left w',
    c.Complete p op v rest u links last left w' ∧
    c.Applied (.parser mark (.chainl1 p op)) x w (.success last left) w' ∧
    (∀ links' last' left' w'', c.Complete p op v rest u links' last' left' w'' →
      links' = links ∧ last' = last ∧ left' = left ∧ w'' = w') ∧
    ∀ g : Value → Value → Value → Value,
      (∀ link ∈ links, ∀ a b, Agree (c.combined link.1 a b) (.ret (g link.1 a b))) →
        last = links.foldl (fun value link => g link.1 value link.2) v

section
variable {c} {p op x : Value} {w : Store}

theorem chainFails {v : Store} (first : c.Applied p x w .failure v) (mark : Mark) :
    c.Applied (.parser mark (.chainl1 p op)) x w .failure v :=
  (c.chainUnrolls mark p op x _ _ _).mpr
    ⟨0, Running.endsThen (first.viewed (partsBack .failure)) Running.endsRet⟩

theorem Complete.applied {v rest : Value} {u w' : Store} {links : List (Value × Value)}
    {last left : Value} (first : c.Applied p x w (.success v rest) u)
    (complete : c.Complete p op v rest u links last left w') (mark : Mark) :
    c.Applied (.parser mark (.chainl1 p op)) x w (.success last left) w' := by
  obtain ⟨_, chain, stops⟩ := complete
  refine (c.chainUnrolls mark p op x _ _ _).mpr ⟨links.length + 1, ?_⟩
  exact Running.endsThen (first.viewed (partsBack _))
    (Running.endsThen (chain.runs stops) Running.endsRet)

theorem leftFold (mark : Mark) (ends : ∃ o v, c.Applied p x w o v)
    (turns : ∀ v rest u, c.Applied p x w (.success v rest) u → c.Turns p op v rest u) :
    c.LeftFold mark p op x w := by
  have folds : ∀ v rest u, c.Applied p x w (.success v rest) u → ∃ links last left w',
      c.Complete p op v rest u links last left w' := fun v rest u first =>
    (turns v rest u first).complete
  refine ⟨fun w' => ⟨fun failed => ?_, fun first => chainFails first mark⟩, fun v rest u first => ?_⟩
  · obtain ⟨o, u, first⟩ := ends
    cases o with
    | failure => exact (failed.once (chainFails first mark)).2 ▸ first
    | success v rest =>
      obtain ⟨links, last, left, v, complete⟩ := folds v rest u first
      cases (failed.once (complete.applied first mark)).1
  · obtain ⟨links, last, left, w', complete⟩ := folds v rest u first
    refine ⟨links, last, left, w', complete, complete.applied first mark, ?_, fun g silent => ?_⟩
    · rintro links' last' left' w'' ⟨_, other, stops'⟩
      obtain ⟨_, chain, stops⟩ := complete
      obtain ⟨rfl, rfl, rfl, -, rfl⟩ := chain.once stops other stops'
      exact ⟨rfl, rfl, rfl, rfl⟩
    · obtain ⟨_, chain, -⟩ := complete
      exact chain.fold silent

end

end Calling

/-- A chain of operands is folded from the left, operator by operator, as long as turns shorten the
text and raise nothing. With one function for all operators it ends as the list of the operands
does that is folded with this function, whatever the text, and be it with a fault. -/
theorem chainIsLeftFold (c : Calling) (p x : Value) :
    (∀ mark op w, (∃ o v, c.Applied p x w o v) →
      (∀ v rest u, c.Applied p x w (.success v rest) u → c.Turns p op v rest u) →
        c.LeftFold mark p op x w) ∧
    ∀ i s f k h g, c.GivesOutcomes p → (∀ v, Agree (c.called k v) (.ret f)) →
      (∀ v w, Agree (c.combined f v w) (.ret (g v w))) →
      (∀ v vs, Agree (c.called h (.list (v :: vs))) (.ret (vs.foldl g v))) →
      ∀ m₁ m₂ m₃ m₄,
        Agree (c.called (.parser m₁ (.chainl1 p (.parser m₂ (.map (.parser i s) k)))) x)
          (c.called (.parser m₃ (.map (.parser m₄ (.sepBy1 p (.parser i s))) h)) x) :=
  ⟨fun mark _ _ ends turns => Calling.leftFold mark ends turns,
    fun _ _ _ _ _ _ outcomes constant silent fold m₁ m₂ m₃ m₄ =>
      Calling.chainFolds outcomes constant silent fold m₁ m₂ m₃ m₄ x⟩

def Brief (c : Calling) (q : Value) (good : Value → Prop) : Prop :=
  ∀ text w, ∃ o, c.Applied q (.str text) w o w ∧
    ∀ v rest, o = .success v rest → good v ∧ rest.ShorterThan text

theorem charBrief (c : Calling) (mark : Mark) (a : Char) :
    Brief c (.parser mark (.char (.str [a]))) fun _ => True := by
  intro text w
  have runs : c.call 1 (.parser mark (.char (.str [a]))) [.str text] [] =
      give (reading (Parser.sat [a].contains) .ofChar (elementEqual (.str [a]))) (.str text) :=
    c.applies 0 mark _ (.str text)
  have reads : Reads (Parser.sat [a].contains text : Run _) _ := .sat _ text
  cases reads with
  | fits v rest same only =>
    refine ⟨.success (.ofChar v) (.str rest), ⟨nofun, 1, ?_⟩, ?_⟩
    · refine (congrFun runs w).trans ?_
      change ((Parser.sat [a].contains text >>= _) >>= _) w = _
      rw [same]
      rfl
    · rintro _ _ ⟨⟩
      exact ⟨trivial, rest, rfl, satShrinks _ ((only v rest).mpr ⟨rfl, rfl⟩)⟩
  | fails same none =>
    refine ⟨.failure, ⟨nofun, 1, (congrFun runs w).trans ?_⟩, nofun⟩
    change ((Parser.sat [a].contains text >>= _) >>= _) w = _
    rw [same]
    rfl

theorem Brief.constant {c : Calling} {sep k f : Value} {good : Value → Prop} (brief : Brief c sep good)
    (constant : ∀ v, Agree (c.called k v) (.ret f)) (mark : Mark) :
    Brief c (.parser mark (.map sep k)) (· = f) := by
  intro text w
  obtain ⟨o, applied, shorter⟩ := brief text w
  cases o with
  | failure =>
    refine ⟨.failure, ?_, nofun⟩
    exact (c.mapAgrees mark sep k _ _ _ _).mpr (Running.endsThen applied.taken Running.endsRet)
  | success v rest =>
    refine ⟨.success f rest, ?_, ?_⟩
    · have mapped : (c.mapped k v rest).Ends w (.done (.success f rest)) w :=
        Running.endsThen ((constant v _ _ _).mpr Running.endsRet) Running.endsRet
      exact (c.mapAgrees mark sep k _ _ _ _).mpr (Running.endsThen applied.taken mapped)
    · rintro _ _ ⟨⟩
      exact ⟨rfl, (shorter v rest rfl).2⟩

section
variable {c : Calling} {p op value : Value} {good : Value → Prop}
  (operand : Brief c p fun _ => True) (operator : Brief c op good)
include operand operator

theorem Brief.leavesText {x next rest : Value} {links : List (Value × Value)} {w w' : Store}
    (chain : c.Chain p op value x w links next rest w') (isText : x.IsText) : rest.IsText := by
  induction chain with
  | stop => exact isText
  | link first second _ _ ih =>
    obtain ⟨text, rfl⟩ := isText
    obtain ⟨_, applied, shorter⟩ := operator text _
    obtain ⟨mid, rfl, -⟩ := (shorter _ _ (applied.once first).1).2
    obtain ⟨_, applied, shorter⟩ := operand mid _
    obtain ⟨rest, rfl, -⟩ := (shorter _ _ (applied.once second).1).2
    exact ih ⟨rest, rfl⟩

theorem Brief.turns
    (ends : ∀ f, good f → ∀ v w u, ∃ next u', (c.combined f v w).Ends u (.done next) u')
    (text : Text) (w : Store) : c.Turns p op value (.str text) w := by
  intro links next rest w' chain
  obtain ⟨text, rfl⟩ := operand.leavesText operator chain ⟨text, rfl⟩
  obtain ⟨o, first, shorter⟩ := operator text w'
  refine ⟨⟨o, w', first⟩, fun f mid v applied => ?_, fun f mid v right rest u applied second => ?_⟩
  · obtain ⟨mid, rfl, -⟩ := (shorter _ _ (first.once applied).1).2
    obtain ⟨o, applied, -⟩ := operand mid v
    exact ⟨o, v, applied⟩
  · obtain ⟨held, mid, rfl, less⟩ := shorter _ _ (first.once applied).1
    obtain ⟨_, other, shorter⟩ := operand mid v
    obtain ⟨rest, rfl, less'⟩ := (shorter _ _ (other.once second).1).2
    exact ⟨Nat.lt_trans less' less, ends f held next right u⟩

end

theorem charOutcomes (c : Calling) (mark : Mark) (v : Value) :
    c.GivesOutcomes (.parser mark (.char v)) := c.outcomesOfGive (fun _ _ _ => rfl) mark

def pairsOf : Value → Value
  | .list (v :: vs) => vs.foldl (fun a b => .tuple [a, b]) v
  | v => v

def dashHost : Host where
  act id :=
    if id = 1 then some fun _ _ => pure (.builtin .pair)
    else if id = 2 then some fun _ v => pure (pairsOf v)
    else none
  grows given c d below v := by
    repeat' split at given
    all_goals cases given
    · exact .refl _
    · exact .refl _

def dash : Grammar := .char (.str ['-'])

def pairing : Value := .parser (.made 3) (.map (.parser (.made 2) dash) (hosted 1))

def dashLetter : Value := .parser (.made 1) (.char (.str ['a']))

def dashedText : Text := ['a', '-', 'a', '-', 'a', '-', 'b']

theorem dashedFolds :
    dashHost.call 5 (.parser (.made 4) (.chainl1 dashLetter pairing)) [.str dashedText] [] .empty =
      (.done (.success (.tuple [.tuple [.str ['a'], .str ['a']], .str ['a']]) (.str ['-', 'b'])),
        .empty) ∧
    dashHost.calling.LeftFold (.made 4) dashLetter pairing (.str dashedText) .empty ∧
    Agree (dashHost.calling.called (.parser (.made 4) (.chainl1 dashLetter pairing)) (.str dashedText))
      (dashHost.calling.called (.parser (.made 5) (.map (.parser (.made 6)
        (.sepBy1 dashLetter (.parser (.made 2) dash))) (hosted 2))) (.str dashedText)) := by
  obtain ⟨folds, agrees⟩ := chainIsLeftFold dashHost.calling dashLetter (.str dashedText)
  have constant : ∀ v, Agree (dashHost.calling.called (hosted 1) v) (.ret (.builtin .pair)) :=
    fun _ => .later fun _ => rfl
  have pairs : ∀ a b, Agree (dashHost.calling.combined (.builtin .pair) a b)
      (.ret (.tuple [a, b])) := fun _ _ => .later fun _ => rfl
  have letters := charBrief dashHost.calling (.made 1) 'a'
  have dashes := (charBrief dashHost.calling (.made 2) '-').constant constant (.made 3)
  refine ⟨by cbv, folds _ _ _ ?_ fun v rest u first => ?_, ?_⟩
  · obtain ⟨o, applied, -⟩ := letters _ Store.empty
    exact ⟨o, _, applied⟩
  · obtain ⟨o, applied, shorter⟩ := letters _ Store.empty
    obtain ⟨-, rest, rfl, -⟩ := shorter _ _ (applied.once first).1
    refine letters.turns dashes ?_ rest u
    rintro _ rfl a b w
    exact ⟨.tuple [a, b], w, (pairs a b _ _ _).mpr Running.endsRet⟩
  · exact agrees _ _ _ _ _ _ (charOutcomes _ _ _) constant pairs
      (fun _ _ => .later fun _ => rfl) _ _ _ _

end ParseKit.Script
