import ParseKit.Proofs.History.Cells
import ParseKit.Proofs.Settling

/-! Two runs side by side. They start from stores that agree in whatever sense is meant, and should
end alike in stores that agree again, having given values over cells that the left store knows.
One of them may be cut short before the other, which says nothing. Every combinator keeps runs
side by side. -/
namespace ParseKit.Script

namespace Store

def known (w : Store) : Set Name := {id | (w.cell? id).isSome}

@[simp] theorem memKnown (w : Store) (id : Name) : id ∈ w.known ↔ (w.cell? id).isSome := .rfl

@[simp] theorem cellNaming (w : Store) (name id : Name) :
    (w.naming name).cell? id = w.cell? id := rfl

theorem cellAdded (w : Store) (c : Cell) (id : Name) :
    (w.addCell c).cell? id = if c.name = id then some c else w.cell? id := by
  simp only [addCell, cell?, Array.toList_push, List.findRev?_eq_find?_reverse,
    List.reverse_append, List.reverse_singleton, List.singleton_append, List.find?_cons]
  by_cases same : c.name = id
  · simp [same]
  · rw [beq_eq_false_iff_ne.mpr same, if_neg same]

theorem knownAdded (w : Store) (c : Cell) : w.known ⊆ (w.addCell c).known := by
  intro id found
  show ((w.addCell c).cell? id).isSome
  rw [cellAdded]
  split
  · rfl
  · exact found

end Store

inductive Side where
  | left | right

/- What it means for the stores of two runs to agree. The limits on the left are `ahead` of those
on the right, which helps where only the right run may be cut short. -/
structure Coupling where
  side : Side
  ahead : Nat
  level : side = .left → ahead = 0
  agree : Store → Store → Prop
  name : ∀ {a s}, agree a s → a.name = s.name
  next : ∀ {a s}, agree a s → agree (a.naming a.name.next) (s.naming s.name.next)
  event : ∀ {a s} (e : Event), agree a s → agree (a.addEvent e) (s.addEvent e)
  share : ∀ {a s} (tag : Option Text) (body : Expr) {env : Env}, agree a s → Over a.known env →
    agree ((a.naming a.name.nextCell).addCell ⟨a.name.ofCell, tag, body, env, none⟩)
      ((s.naming s.name.nextCell).addCell ⟨s.name.ofCell, tag, body, env, none⟩)

def Side.short {α : Type} : Side → (left right : Exit α) → Prop
  | left, x, _ => x = .exhausted
  | right, _, y => y = .exhausted

section
variable {α β : Type} [Cellular α] [Cellular β]

inductive Meets (K : Coupling) (known : Set Name) : Exit α × Store → Exit α × Store → Prop where
  | short {p q : Exit α × Store} (cut : K.side.short p.1 q.1) : Meets K known p q
  | done {v : α} {a s : Store} (agree : K.agree a s) (grown : known ⊆ a.known)
      (based : Over a.known v) : Meets K known (.done v, a) (.done v, s)
  | raised {fault : Fault} {a s : Store} (agree : K.agree a s) (grown : known ⊆ a.known) :
      Meets K known (.raised fault, a) (.raised fault, s)

theorem Meets.before {K : Coupling} {small large : Set Name} {p q : Exit α × Store}
    (meets : Meets K large p q) (sub : small ⊆ large) : Meets K small p q := by
  cases meets with
  | short cut => exact .short cut
  | done agree grown based => exact .done agree (sub.trans grown) based
  | raised agree grown => exact .raised agree (sub.trans grown)

def Coupled (K : Coupling) (known : Set Name) (x y : Run α) : Prop :=
  ∀ a s, K.agree a s → known ⊆ a.known → Meets K a.known (x a) (y s)

namespace Coupled
variable {K : Coupling} {known : Set Name}

theorem grow {large : Set Name} {x y : Run α} (coupled : Coupled K known x y)
    (sub : known ⊆ large) : Coupled K large x y :=
  fun a s agree grown => coupled a s agree (sub.trans grown)

theorem done {v : α} (based : Over known v) : Coupled K known (pure v) (pure v) :=
  fun _ _ agree grown => .done agree subset_rfl (Cellular.grow grown based)

theorem raise (fault : Fault) : Coupled K known (Eff.raise fault : Run α) (Eff.raise fault) :=
  fun _ _ agree _ => .raised agree subset_rfl

theorem cut {x : Run α} (short : K.ahead = 0 → x = Eff.exhausted) :
    Coupled K known x Eff.exhausted := by
  intro a s _ _
  cases side : K.side with
  | left =>
    rw [short (K.level side)]
    exact .short (by simp [Side.short, side, Eff.exhausted])
  | right => exact .short (by simp [Side.short, side, Eff.exhausted])

theorem exhausted : Coupled K known (Eff.exhausted : Run α) Eff.exhausted := cut fun _ => rfl

theorem ofExcept {r : Except Fault α} (based : Over known r) :
    Coupled K known (Eff.ofExcept r) (Eff.ofExcept r) := by
  cases r with
  | ok a => exact done (overOk.mp based)
  | error fault => exact raise fault

theorem bind {x y : Run α} {f g : α → Run β} (head : Coupled K known x y)
    (tail : ∀ more v, known ⊆ more → Over more v → Coupled K more (f v) (g v)) :
    Coupled K known (x >>= f) (y >>= g) := by
  intro a s agree grown
  have first := head a s agree grown
  rcases left : x a with ⟨exit, a'⟩
  rcases right : y s with ⟨exit', s'⟩
  rw [left, right] at first
  cases first with
  | short cut =>
    refine .short ?_
    cases side : K.side with
    | left =>
      simp only [Side.short, side] at cut ⊢
      rw [Eff.bindOfExhausted (left.trans (by rw [cut]))]
    | right =>
      simp only [Side.short, side] at cut ⊢
      rw [Eff.bindOfExhausted (right.trans (by rw [cut]))]
  | done agree' grown' based =>
    rw [Eff.bindOfDone left, Eff.bindOfDone right]
    exact (tail a'.known _ (grown.trans grown') based a' s' agree' subset_rfl).before grown'
  | raised agree' grown' =>
    rw [Eff.bindOfRaised left, Eff.bindOfRaised right]
    exact .raised agree' grown'

theorem attempt {x y : Run α} (inner : Coupled K known x y) :
    Coupled K known x.attempt y.attempt := by
  intro a s agree grown
  have first := inner a s agree grown
  rcases left : x a with ⟨exit, a'⟩
  rcases right : y s with ⟨exit', s'⟩
  rw [left, right] at first
  cases first with
  | short cut =>
    refine .short ?_
    cases side : K.side with
    | left =>
      simp only [Side.short, side] at cut ⊢
      simp [Eff.attempt, left, cut]
    | right =>
      simp only [Side.short, side] at cut ⊢
      simp [Eff.attempt, right, cut]
  | done agree' grown' based =>
    rw [Eff.attemptOfDone left, Eff.attemptOfDone right]
    exact .done agree' grown' (overOk.mpr based)
  | raised agree' grown' =>
    rw [Eff.attemptOfRaised left, Eff.attemptOfRaised right]
    exact .done agree' grown' overError

theorem event (e : Event) :
    Coupled K known (Eff.modify (Store.addEvent e)) (Eff.modify (Store.addEvent e)) :=
  fun _ _ agree _ => .done (K.event e agree) subset_rfl trivial

theorem name : Coupled K known Run.name Run.name := by
  intro a s agree _
  show Meets K a.known (.done a.name, _) (.done s.name, _)
  rw [← K.name agree]
  exact .done (by simpa only [K.name agree] using K.next agree) subset_rfl trivial

theorem share (tag : Option Text) (body : Expr) {env : Env} (based : Over known env)
    {f g : Name → Run β}
    (tail : ∀ more id, known ⊆ more → id ∈ more → Coupled K more (f id) (g id)) :
    Coupled K known (Run.share tag body env >>= f) (Run.share tag body env >>= g) := by
  intro a s agree grown
  have shared := K.share tag body agree (Cellular.grow grown based)
  have larger := Store.knownAdded (a.naming a.name.nextCell) ⟨a.name.ofCell, tag, body, env, none⟩
  have there : a.name.ofCell ∈
      ((a.naming a.name.nextCell).addCell ⟨a.name.ofCell, tag, body, env, none⟩).known := by
    simp [Store.cellAdded]
  rw [Eff.bindOfDone (x := Run.share tag body env) rfl,
    Eff.bindOfDone (x := Run.share tag body env) (w := s) rfl, ← K.name agree]
  rw [← K.name agree] at shared
  exact (tail _ _ (grown.trans larger) there _ _ shared subset_rfl).before larger

theorem make {m : Made} (based : Over known m) : Coupled K known (Run.make m) (Run.make m) := by
  cases m with
  | parser g => exact name.bind fun more n sub _ => done (by simpa using Cellular.grow sub based)
  | value v => exact done based

theorem number (x : Binary64) : Coupled K known (Run.number x) (Run.number x) := by
  unfold Run.number
  split
  · exact name.bind fun more n _ _ => done (by simp)
  · exact done (by simp)

end Coupled

def Parallel (K : Coupling) (known : Set Name) (p q : Parser Value Store α) : Prop :=
  ∀ more x, known ⊆ more → Over more x → Coupled K more (p x) (q x)

namespace Parallel
variable {K : Coupling} {known : Set Name} {γ : Type} [Cellular γ]

theorem grow {large : Set Name} {p q : Parser Value Store α} (parallel : Parallel K known p q)
    (sub : known ⊆ large) : Parallel K large p q :=
  fun more x grown input => parallel more x (sub.trans grown) input

theorem ret {v : α} (based : Over known v) :
    Parallel K known (Parser.ret v) (Parser.ret v) := fun _ _ grown input =>
  .done (overSuccess.mpr ⟨Cellular.grow grown based, input⟩)

theorem fail : Parallel K known (Parser.fail : Parser Value Store α) Parser.fail :=
  fun _ _ _ _ => .done overFailure

theorem bind {p q : Parser Value Store α} {f g : α → Parser Value Store β}
    (head : Parallel K known p q)
    (tail : ∀ more v, known ⊆ more → Over more v → Parallel K more (f v) (g v)) :
    Parallel K known (p.bind f) (q.bind g) := fun more x grown input =>
  (head more x grown input).bind fun large o sub inside => by
    cases o with
    | failure => exact .done overFailure
    | success v rest =>
      obtain ⟨value, left⟩ := overSuccess.mp inside
      exact tail large v (grown.trans sub) value large rest subset_rfl left

theorem alt {p q p' q' : Parser Value Store α} (first : Parallel K known p q)
    (second : Parallel K known p' q') : Parallel K known (p.alt p') (q.alt q') :=
  fun more x grown input => (first more x grown input).bind fun large o sub inside => by
    cases o with
    | failure => exact second large x (grown.trans sub) (Cellular.grow sub input)
    | success v rest => exact .done inside

theorem mapM {p q : Parser Value Store α} {f g : α → Run β} (head : Parallel K known p q)
    (tail : ∀ more v, known ⊆ more → Over more v → Coupled K more (f v) (g v)) :
    Parallel K known (p.mapM f) (q.mapM g) := fun more x grown input =>
  (head more x grown input).bind fun large o sub inside => by
    cases o with
    | failure => exact .done overFailure
    | success v rest =>
      obtain ⟨value, left⟩ := overSuccess.mp inside
      exact (tail large v (grown.trans sub) value).bind fun _ w later based =>
        .done (overSuccess.mpr ⟨based, Cellular.grow later left⟩)

theorem map {p q : Parser Value Store α} (head : Parallel K known p q) {f : α → β}
    (keeps : ∀ more v, Over more v → Over more (f v)) :
    Parallel K known (p.map f) (q.map f) :=
  head.mapM fun more v _ based => .done (keeps more v based)

theorem filterM {p q : Parser Value Store α} {f g : α → Run Bool} (head : Parallel K known p q)
    (tail : ∀ more v, known ⊆ more → Over more v → Coupled K more (f v) (g v)) :
    Parallel K known (p.filterM f) (q.filterM g) :=
  head.bind fun more v sub based large x grown input =>
    (tail large v (sub.trans grown) (Cellular.grow grown based)).bind fun _ b later _ => by
      cases b with
      | true =>
        exact .done (overSuccess.mpr
          ⟨Cellular.grow (grown.trans later) based, Cellular.grow later input⟩)
      | false => exact .done overFailure

theorem keepRight {p q : Parser Value Store α} {p' q' : Parser Value Store β}
    (first : Parallel K known p q) (second : Parallel K known p' q') :
    Parallel K known (p.keepRight p') (q.keepRight q') :=
  first.bind fun _ _ sub _ => second.grow sub

theorem keepLeft {p q : Parser Value Store α} {p' q' : Parser Value Store β}
    (first : Parallel K known p q) (second : Parallel K known p' q') :
    Parallel K known (p.keepLeft p') (q.keepLeft q') :=
  first.bind fun _ _ sub based => (second.grow sub).mapM fun _ _ later _ =>
    .done (Cellular.grow later based)

theorem between {p q : Parser Value Store α} {p' q' : Parser Value Store β}
    {r t : Parser Value Store γ} (opening : Parallel K known p q)
    (closing : Parallel K known p' q') (inner : Parallel K known r t) :
    Parallel K known (Parser.between p p' r) (Parser.between q q' t) :=
  opening.bind fun _ _ sub _ => (inner.grow sub).bind fun _ _ later based =>
    (closing.grow (sub.trans later)).bind fun _ _ last _ => ret (Cellular.grow last based)

theorem optional {p q : Parser Value Store α} (head : Parallel K known p q) :
    Parallel K known (Parser.optional p) (Parser.optional q) :=
  (head.bind fun _ _ _ _ => ret trivial).alt (ret trivial)

theorem numeralOf {p q p' q' whole whole' fraction fraction' : Parser Value Store Text}
    (minus : Parallel K known p q) (point : Parallel K known p' q')
    (front : Parallel K known whole whole') (back : Parallel K known fraction fraction') :
    Parallel K known (Parser.numeralOf p p' whole fraction)
      (Parser.numeralOf q q' whole' fraction') := by
  simp only [Parser.numeralOfBind]
  have joined (large : Set Name) (text : Text) :
      Parallel K large (Parser.ret text) (Parser.ret text) := ret overText
  have none : Parallel K known (Parser.ret []) (Parser.ret []) := joined known []
  have behind : Parallel K known _ _ := point.bind fun _ dot sub _ =>
    (back.grow sub).bind fun large more _ _ => joined large (dot ++ more)
  exact (minus.alt none).bind fun _ sign sub _ => (front.grow sub).bind fun _ before later _ =>
    ((behind.alt none).grow (sub.trans later)).bind fun large after _ _ =>
      joined large (sign ++ (before ++ after))

theorem converted (float : Text → Option Binary64) (text : Text) :
    Parallel K known (Parser.converted float text) (Parser.converted float text) := by
  rcases Parser.convertedCases float text with same | ⟨x, same⟩
  · rw [same]
    exact fail
  · rw [same]
    exact ret trivial

theorem pair {p q : Parser Value Store α} {p' q' : Parser Value Store β}
    (first : Parallel K known p q) (second : Parallel K known p' q') :
    Parallel K known (p.pair p') (q.pair q') := by
  simp only [pairBind]
  exact first.bind fun _ _ sub based => (second.grow sub).mapM fun _ _ later inside =>
    .done ⟨Cellular.grow later based, inside⟩

theorem sequenceFrom {ι : Type} {f g : ι → Parser Value Store α} {items : List ι}
    (each : ∀ i ∈ items, Parallel K known (f i) (g i)) {seen : List α} (based : Over known seen) :
    Parallel K known (Parser.sequenceFrom seen (items.map f))
      (Parser.sequenceFrom seen (items.map g)) := by
  induction items generalizing seen known with
  | nil => exact ret fun v mem => based v (List.mem_reverse.mp mem)
  | cons i items ih =>
    obtain ⟨first, others⟩ := List.forall_mem_cons.mp each
    refine first.bind fun more v sub inside => ih (fun j mem => (others j mem).grow sub) ?_
    exact overCons inside (Cellular.grow sub based)

theorem countFrom {p q : Parser Value Store α} (head : Parallel K known p q) {seen : List α}
    (based : Over known seen) (k : Nat) :
    Parallel K known (Parser.countFrom p seen k) (Parser.countFrom q seen k) := by
  induction k generalizing seen known with
  | zero => exact ret fun v mem => based v (List.mem_reverse.mp mem)
  | succ k ih =>
    refine head.bind fun more v sub inside => ih (head.grow sub) ?_
    exact overCons inside (Cellular.grow sub based)

theorem repeatFrom {p q : Parser Value Store α} (head : Parallel K known p q) (limit : Nat)
    {seen : List α} (based : Over known seen) {x : Value} (input : Over known x) :
    Coupled K known (Parser.repeatFrom p (limit + K.ahead) seen x)
      (Parser.repeatFrom q limit seen x) := by
  induction limit generalizing seen x known with
  | zero =>
    rw [repeatRound, repeatRound]
    refine (head known x subset_rfl input).bind fun more o sub inside => ?_
    cases o with
    | failure =>
      exact .done ⟨fun v mem => Cellular.grow sub (based v (List.mem_reverse.mp mem)),
        Cellular.grow sub input⟩
    | success v rest =>
      refine .cut fun level => ?_
      rw [level]
      rfl
  | succ limit ih =>
    rw [repeatRound, repeatRound, Nat.add_right_comm]
    refine (head known x subset_rfl input).bind fun more o sub inside => ?_
    cases o with
    | failure =>
      exact .done ⟨fun v mem => Cellular.grow sub (based v (List.mem_reverse.mp mem)),
        Cellular.grow sub input⟩
    | success v rest =>
      obtain ⟨value, left⟩ := overSuccess.mp inside
      exact ih (head.grow sub) (overCons value (Cellular.grow sub based)) left

theorem repeated {p q : Parser Value Store α} (head : Parallel K known p q)
    (limit least : Nat) :
    Parallel K known (Parser.repeated (limit + K.ahead) least p)
      (Parser.repeated limit least q) := fun more x grown input =>
  ((head.grow grown).repeatFrom limit (by simp) input).bind
    fun large r _ inside => by
      dsimp only
      split
      · exact .done overFailure
      · exact .done (overSuccess.mpr inside)

theorem sepBy1Within {p q : Parser Value Store α} {p' q' : Parser Value Store β}
    (operand : Parallel K known p q) (separator : Parallel K known p' q') (limit : Nat) :
    Parallel K known (Parser.sepBy1Within (limit + K.ahead) p p')
      (Parser.sepBy1Within limit q q') :=
  operand.bind fun _ _ sub based =>
    (((separator.keepRight operand).grow sub).repeated limit 0).bind fun _ _ later more =>
      ret (overCons (Cellular.grow later based) more)

theorem sepByWithin {p q : Parser Value Store α} {p' q' : Parser Value Store β}
    (operand : Parallel K known p q) (separator : Parallel K known p' q') (limit : Nat) :
    Parallel K known (Parser.sepByWithin (limit + K.ahead) p p')
      (Parser.sepByWithin limit q q') :=
  (operand.sepBy1Within separator limit).alt (ret (by simp))

section
variable {ι : Type} [Cellular ι] {p q : Parser Value Store α} {op op' : Parser Value Store ι}
  {f g : ι → α → α → Run α}

theorem chainFrom (operand : Parallel K known p q) (operator : Parallel K known op op')
    (combine : ∀ more i v w, known ⊆ more → Over more i → Over more v → Over more w →
      Coupled K more (f i v w) (g i v w))
    (limit : Nat) {value : α} (based : Over known value) {x : Value} (input : Over known x) :
    Coupled K known (Parser.chainFrom p (op.map f) (limit + K.ahead) value x)
      (Parser.chainFrom q (op'.map g) limit value x) := by
  induction limit generalizing value x known with
  | zero =>
    rw [chainRound, chainRound]
    refine ((operator.pair operand) known x subset_rfl input).bind fun more o sub inside => ?_
    cases o with
    | failure => exact .done ⟨Cellular.grow sub based, Cellular.grow sub input⟩
    | success v rest =>
      obtain ⟨⟨function, right⟩, left⟩ := overSuccess.mp inside
      refine (combine more v.1 value v.2 sub function (Cellular.grow sub based) right).bind
        fun large w later result => ?_
      refine .cut fun level => ?_
      rw [level]
      rfl
  | succ limit ih =>
    rw [chainRound, chainRound, Nat.add_right_comm]
    refine ((operator.pair operand) known x subset_rfl input).bind fun more o sub inside => ?_
    cases o with
    | failure => exact .done ⟨Cellular.grow sub based, Cellular.grow sub input⟩
    | success v rest =>
      obtain ⟨⟨function, right⟩, left⟩ := overSuccess.mp inside
      refine (combine more v.1 value v.2 sub function (Cellular.grow sub based) right).bind
        fun large w later result => ?_
      have grown := sub.trans later
      exact ih (operand.grow grown) (operator.grow grown)
        (fun more i v w sub => combine more i v w (grown.trans sub)) result
        (Cellular.grow later left)

theorem chainAfter (operand : Parallel K known p q) (operator : Parallel K known op op')
    (combine : ∀ more i v w, known ⊆ more → Over more i → Over more v → Over more w →
      Coupled K more (f i v w) (g i v w))
    (limit : Nat) {first : α} (based : Over known first) :
    Parallel K known (Parser.chainAfter (limit + K.ahead) p (op.map f) first)
      (Parser.chainAfter limit q (op'.map g) first) := fun _ _ grown input =>
  (chainFrom (operand.grow grown) (operator.grow grown)
      (fun more i v w sub => combine more i v w (grown.trans sub)) limit
      (Cellular.grow grown based) input).bind
    fun _ _ _ inside => .done (overSuccess.mpr inside)

end

end Parallel
end

end ParseKit.Script
