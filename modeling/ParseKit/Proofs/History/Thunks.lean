import ParseKit.Proofs.History.Lives

/-! Calls with shared parsers told of in two ways. They go along each other and tell the same
entries. Where the thunk of a chosen parser is evaluated nothing is applied, so that its cell is
left alone until it returns. Main statement: the chosen parsers, whose thunks only build, have their
lives in all that is told. -/
namespace ParseKit.Script

structure Upkeep (inv : List Entry → Store → Prop) : Prop where
  next : ∀ {entries w}, inv entries w → inv entries (w.naming w.name.next)
  event : ∀ {entries w} (e : Event), inv entries w → inv (entries ++ [.event e]) (w.addEvent e)
  share : ∀ {entries w} (tag : Option Text) (body : Expr) (env : Env), inv entries w →
    inv entries ((w.naming w.name.nextCell).addCell ⟨w.name.ofCell, tag, body, env, none⟩)

structure Aligned (inv : List Entry → Store → Prop) (tell tell' : Teller) (a s : Store) :
    Prop where
  cells : a.cells = s.cells
  name : a.name = s.name
  closed : a.Closed
  telling : ∃ entries, a.events.toList = told tell entries ∧ s.events.toList = told tell' entries ∧
    inv entries a

section
variable {inv : List Entry → Store → Prop} (kept : Upkeep inv) {tell tell' : Teller} {a s : Store}
  (aligned : Aligned inv tell tell' a s)
include kept aligned

theorem Aligned.next :
    Aligned inv tell tell' (a.naming a.name.next) (s.naming s.name.next) := by
  obtain ⟨cells, name, closed, entries, left, right, holds⟩ := aligned
  exact ⟨cells, congrArg Name.next name, closed, entries, left, right, kept.next holds⟩

theorem Aligned.event (e : Event) : Aligned inv tell tell' (a.addEvent e) (s.addEvent e) := by
  obtain ⟨cells, name, closed, entries, left, right, holds⟩ := aligned
  refine ⟨cells, name, closed, entries ++ [.event e], ?_, ?_, kept.event e holds⟩
  · rw [toldAppend, ← left]
    exact Array.toList_push
  · rw [toldAppend, ← right]
    exact Array.toList_push

theorem Aligned.share (tag : Option Text) (body : Expr) {env : Env} (based : Over a.known env) :
    Aligned inv tell tell'
      ((a.naming a.name.nextCell).addCell ⟨a.name.ofCell, tag, body, env, none⟩)
      ((s.naming s.name.nextCell).addCell ⟨s.name.ofCell, tag, body, env, none⟩) := by
  obtain ⟨cells, name, closed, entries, left, right, holds⟩ := aligned
  refine ⟨?_, congrArg Name.nextCell name, ?_, entries, left, right, kept.share tag body env holds⟩
  · simp only [Store.addCell, Store.naming, cells, name]
  · exact Store.Closed.addCell (w := a.naming _) closed
      (Cellular.grow (Store.knownAdded (a.naming _) _) ⟨based, by simp⟩)

end

theorem Side.noneAhead : Side.right = .left → 0 = 0 := fun _ => rfl

def Coupling.telling {inv : List Entry → Store → Prop} (kept : Upkeep inv) (tell tell' : Teller) :
    Coupling where
  side := .right
  ahead := 0
  level := Side.noneAhead
  agree := Aligned inv tell tell'
  name aligned := aligned.name
  next aligned := aligned.next kept
  event e aligned := aligned.event kept e
  share tag body _ aligned based := aligned.share kept tag body based

section
variable (start : Store) (only : Name → Bool) (past : List Entry)

def living (entries : List Entry) (w : Store) : Prop := Lives start only (past ++ entries) w

theorem livingKept : Upkeep (living start only past) where
  next lives := lives
  event e lives := by
    unfold living
    rw [← List.append_assoc]
    exact Lives.event lives e
  share {_ w} tag body env lives := Lives.share (w := w.naming _) lives _ tag body env

structure Evaluating (before : List Entry) (l : Lazy) (c : Cell) (entries : List Entry)
    (w : Store) : Prop where
  telling : ∃ events : List Event, entries = before ++
      ([.applied, .began].map (fun m => Entry.sight ⟨l, m⟩) ++ events.map Entry.event) ∧
    Lives start only (past ++ before ++ events.map Entry.event) w
  made : w.made l.name = l.number
  cell : w.cell? l.name = some c
  name : ∃ stage serial shared, w.name = .inner l.name stage serial shared

theorem evaluatingKept (before : List Entry) (l : Lazy) (c : Cell) :
    Upkeep (Evaluating start only past before l c) where
  next := by
    rintro entries w ⟨telling, made, cell, stage, serial, shared, name⟩
    exact ⟨telling, made, cell, stage, serial + 1, shared, congrArg Name.next name⟩
  event := by
    rintro entries w e ⟨⟨events, rfl, lives⟩, made, cell, name⟩
    refine ⟨⟨events ++ [e], ?_, ?_⟩, made, cell, name⟩
    · simp
    · have later := lives.event e
      simpa using later
  share := by
    rintro entries w tag body env ⟨⟨events, rfl, lives⟩, made, cell, stage, serial, shared, name⟩
    have other : w.name.ofCell ≠ l.name := by
      rw [name]
      exact Name.innerOther l.name stage 0 shared
    refine ⟨⟨events, rfl, Lives.share (w := w.naming _) lives _ tag body env⟩, ?_, ?_, stage,
      serial, shared + 1, congrArg Name.nextCell name⟩
    · rw [Store.madeAdded, if_neg fun same => other same.1]
      exact made
    · rw [Store.cellAdded, if_neg other]
      exact cell

end

abbrev Coupling.lives (start : Store) (only : Name → Bool) (past : List Entry)
    (tell tell' : Teller) : Coupling := .telling (livingKept start only past) tell tell'

namespace Aligned
variable {inv : List Entry → Store → Prop} {tell tell' : Teller} {a s : Store}
  (aligned : Aligned inv tell tell' a s)
include aligned

theorem cell (id : Name) : s.cell? id = a.cell? id := by
  simp only [Store.cell?, aligned.cells]

theorem lazy (id : Name) : s.lazy id = a.lazy id := by
  simp only [Store.lazy, Store.made, aligned.cells]

end Aligned

section
variable {start : Store} {only : Name → Bool} {past : List Entry} {tell tell' : Teller}
  {known : Set Name}

section
variable {l : Lazy} (other : only l.name = false)
include other

theorem tellCoupled (m : Moment) :
    Coupled (.lives start only past tell tell') known (Run.tell tell l m) (Run.tell tell' l m) := by
  rintro a s ⟨cells, name, closed, entries, left, right, lives⟩ grown
  refine .done ⟨cells, name, closed, entries ++ [.sight ⟨l, m⟩], ?_, ?_, ?_⟩ subset_rfl trivial
  · simp [Store.addEvents, left, told]
  · simp [Store.addEvents, right, told]
  · unfold living at lives ⊢
    rw [← List.append_assoc]
    exact lives.sight other m _

theorem fillCoupled {p : Value} (based : Over known p) :
    Coupled (.lives start only past tell tell') known (Run.fill l.name p) (Run.fill l.name p) := by
  intro a s aligned grown
  have value := Cellular.grow grown based
  have read (w : Store) : Run.cell? l.name w = (.done (w.cell? l.name), w) := rfl
  unfold Run.fill
  rw [Eff.bindOfDone (read a), Eff.bindOfDone (read s), aligned.cell]
  cases found : a.cell? l.name with
  | none => exact .done aligned subset_rfl value
  | some c =>
    have inside := aligned.closed _ c found
    obtain ⟨name, tag, body, env, built⟩ := c
    cases built with
    | some first => exact .done aligned subset_rfl (inside.2 first rfl)
    | none =>
      obtain rfl : name = l.name := Store.cellNamed found
      have larger := Store.knownAdded a ⟨l.name, tag, body, env, some p⟩
      obtain ⟨cells, name, closed, entries, left, right, lives⟩ := aligned
      refine .done ⟨?_, name, ?_, entries, left, right, ?_⟩ larger (Cellular.grow larger value)
      · simp only [Store.addCell, cells]
      · exact closed.addCell (Cellular.grow larger ⟨inside.1, by simpa using value⟩)
      · exact Lives.fill lives other tag body env p

end

theorem Coupled.buildingLives {x y : Run Value}
    (inner : Coupled (.lives start only past tell tell') known x y) (id : Name) :
    Coupled (.lives start only past tell tell') known (Run.building id x) (Run.building id y) := by
  rintro a s ⟨cells, name, closed, telling⟩ grown
  have run := inner (a.naming (.inner id a.name.stage 0 0)) (s.naming (.inner id a.name.stage 0 0))
    ⟨cells, rfl, closed, telling⟩ grown
  unfold Run.building
  rw [← name]
  generalize x (a.naming _) = p at run
  generalize y (s.naming _) = q at run
  cases run with
  | short cut => exact .short cut
  | done agree grown based =>
    exact .done ⟨agree.cells, rfl, agree.closed, agree.telling⟩ grown based
  | raised agree grown => exact .raised ⟨agree.cells, rfl, agree.closed, agree.telling⟩ grown

section
variable {l : Lazy} (other : only l.name = false)
include other

theorem thunkCoupled {x y : Run Value}
    (inner : Coupled (.lives start only past tell tell') known x y) :
    Coupled (.lives start only past tell tell') known (thunkTelling tell l x)
      (thunkTelling tell' l y) := by
  refine (tellCoupled other .began).bind fun _ _ sub _ =>
    (inner.grow sub).attempt.bind fun _ r _ based => ?_
  cases r with
  | ok p =>
    exact (tellCoupled other (.returned p)).bind fun _ _ later _ =>
      .done (Cellular.grow later (overOk.mp based))
  | error fault => exact (tellCoupled other (.raised fault)).bind fun _ _ _ _ => .raise fault

theorem heldCoupled {c d : Caller} (calls : Callers (.lives start only past tell tell') c d)
    (there : l.name ∈ known) :
    Coupled (.lives start only past tell tell') known (heldTelling tell c l)
      (heldTelling tell' d l) := by
  intro a s aligned grown
  obtain ⟨cell, found⟩ := Option.isSome_iff_exists.mp (grown there)
  have inside := aligned.closed _ cell found
  unfold heldTelling
  rw [Eff.bindOfDone (cellFound found),
    Eff.bindOfDone (cellFound (w := s) (aligned.cell l.name ▸ found))]
  obtain ⟨name, tag, body, env, built⟩ := cell
  cases built with
  | some p => exact .done aligned subset_rfl (inside.2 p rfl)
  | none =>
    have evals : Evals (.lives start only past tell tell') (evalWith c) (evalWith d) :=
      fun known env e bound => evalCoupled calls e known bound
    exact ((thunkCoupled other ((buildCoupled evals tag body inside.1).buildingLives l.name)).bind
      fun _ _ _ based => fillCoupled other based) a s aligned subset_rfl

omit other in
theorem forceOther {c d : Caller} (calls : Callers (.lives start only past tell tell') c d)
    {id : Name} (other : only id = false) (there : id ∈ known) :
    Coupled (.lives start only past tell tell') known (forceTelling tell c id)
      (forceTelling tell' d id) := by
  intro a s aligned grown
  have unchosen : only (a.lazy id).name = false := other
  unfold forceTelling
  rw [Eff.bindOfDone (x := Run.lazy id) (w := a) rfl,
    Eff.bindOfDone (x := Run.lazy id) (w := s) rfl, aligned.lazy]
  exact ((tellCoupled unchosen .applied).bind fun _ _ sub _ =>
    (heldCoupled unchosen calls (sub there)).bind fun _ p _ based =>
      (tellCoupled unchosen (.passed p)).bind fun _ _ later _ =>
        .done (Cellular.grow later based)) a s aligned grown

end

def Store.evaluating (tell : Teller) (l : Lazy) (w : Store) : Store :=
  ((w.addEvents (tell ⟨l, .applied⟩)).addEvents (tell ⟨l, .began⟩)).naming
    (.inner l.name w.name.stage 0 0)

section
variable (tell : Teller) (call : Caller) {w : Store} {id : Name} {tag : Option Text} {body : Expr}
  {env : Env}

theorem forceHeld {c : Cell} {p : Value} (found : w.cell? id = some c) (held : c.built = some p) :
    forceTelling tell call id w = (.done p, (w.addEvents (tell ⟨w.lazy id, .applied⟩)).addEvents
      (tell ⟨w.lazy id, .passed p⟩)) := by
  obtain ⟨name, tag, body, env, built⟩ := c
  obtain rfl : built = some p := held
  have read : heldTelling tell call (w.lazy id) (w.addEvents (tell ⟨w.lazy id, .applied⟩)) =
      (.done p, w.addEvents (tell ⟨w.lazy id, .applied⟩)) :=
    (Eff.bindOfDone (cellFound (w := w.addEvents _) found)).trans rfl
  exact (Eff.bindOfDone read).trans rfl

variable (found : w.cell? id = some ⟨id, tag, body, env, none⟩)
include found

theorem heldUnfilled (events : List Event) :
    heldTelling tell call (w.lazy id) (w.addEvents events) =
      (thunkTelling tell (w.lazy id) (Run.building id (build (evalWith call) tag body env)) >>=
        Run.fill id) (w.addEvents events) :=
  (Eff.bindOfDone (cellFound (w := w.addEvents events) found)).trans rfl

variable {after : Store}

omit found in
theorem thunkEvaluated {exit : Exit Value}
    (run : build (evalWith call) tag body env (w.evaluating tell (w.lazy id)) = (exit, after)) :
    Run.building id (build (evalWith call) tag body env)
      ((w.addEvents (tell ⟨w.lazy id, .applied⟩)).addEvents (tell ⟨w.lazy id, .began⟩)) =
        (exit, after.naming w.name) := by
  have same : build (evalWith call) tag body env
      (((w.addEvents (tell ⟨w.lazy id, .applied⟩)).addEvents (tell ⟨w.lazy id, .began⟩)).naming
        (.inner id w.name.stage 0 0)) = (exit, after) := run
  simp only [Run.building]
  exact congrArg (fun r : Exit Value × Store => (r.1, r.2.naming w.name)) same

theorem forceEndsRaised {fault : Fault}
    (run : build (evalWith call) tag body env (w.evaluating tell (w.lazy id)) =
      (.raised fault, after)) :
    forceTelling tell call id w =
      (.raised fault, (after.naming w.name).addEvents (tell ⟨w.lazy id, .raised fault⟩)) := by
  have evaluated := thunkEvaluated tell call run
  have thunk : thunkTelling tell (w.lazy id)
      (Run.building id (build (evalWith call) tag body env))
      (w.addEvents (tell ⟨w.lazy id, .applied⟩)) =
        (.raised fault, (after.naming w.name).addEvents (tell ⟨w.lazy id, .raised fault⟩)) :=
    (Eff.bindOfDone (Eff.attemptOfRaised evaluated)).trans rfl
  have held := (heldUnfilled tell call found _).trans (Eff.bindOfRaised thunk)
  exact (Eff.bindOfRaised held).trans rfl

theorem forceEndsShort
    (run : build (evalWith call) tag body env (w.evaluating tell (w.lazy id)) =
      (.exhausted, after)) : forceTelling tell call id w = (.exhausted, after.naming w.name) := by
  have evaluated := thunkEvaluated tell call run
  have thunk : thunkTelling tell (w.lazy id)
      (Run.building id (build (evalWith call) tag body env))
      (w.addEvents (tell ⟨w.lazy id, .applied⟩)) = (.exhausted, after.naming w.name) :=
    (Eff.bindOfExhausted (Eff.attemptOfExhausted evaluated)).trans rfl
  have held := (heldUnfilled tell call found _).trans (Eff.bindOfExhausted thunk)
  exact (Eff.bindOfExhausted held).trans rfl

theorem forceEndsDone {p : Value}
    (run : build (evalWith call) tag body env (w.evaluating tell (w.lazy id)) = (.done p, after))
    (still : after.cell? id = some ⟨id, tag, body, env, none⟩) :
    forceTelling tell call id w = (.done p,
      (((after.naming w.name).addEvents (tell ⟨w.lazy id, .returned p⟩)).addCell
        ⟨id, tag, body, env, some p⟩).addEvents (tell ⟨w.lazy id, .passed p⟩)) := by
  have evaluated := thunkEvaluated tell call run
  have thunk : thunkTelling tell (w.lazy id)
      (Run.building id (build (evalWith call) tag body env))
      (w.addEvents (tell ⟨w.lazy id, .applied⟩)) =
        (.done p, (after.naming w.name).addEvents (tell ⟨w.lazy id, .returned p⟩)) :=
    (Eff.bindOfDone (Eff.attemptOfDone evaluated)).trans rfl
  have filled : Run.fill id p
      ((after.naming w.name).addEvents (tell ⟨w.lazy id, .returned p⟩)) = (.done p,
        ((after.naming w.name).addEvents (tell ⟨w.lazy id, .returned p⟩)).addCell
          ⟨id, tag, body, env, some p⟩) :=
    fillEmpty (w := (after.naming w.name).addEvents _) still p
  have held := ((heldUnfilled tell call found _).trans (Eff.bindOfDone thunk)).trans filled
  exact (Eff.bindOfDone held).trans rfl

end

theorem forceFull (c d : Caller) {a s : Store} {id : Name}
    (aligned : Aligned (living start only past) tell tell' a s) {cell : Cell} {p : Value}
    (found : a.cell? id = some cell) (held : cell.built = some p) :
    Meets (.lives start only past tell tell') a.known (forceTelling tell c id a)
      (forceTelling tell' d id s) := by
  rw [forceHeld tell c found held, forceHeld tell' d (aligned.cell id ▸ found) held, aligned.lazy]
  have inside := (aligned.closed id cell found).2 p held
  obtain ⟨cells, name, closed, entries, left, right, lives⟩ := aligned
  refine .done ⟨cells, name, closed,
    entries ++ [.applied, .passed p].map (fun m => Entry.sight ⟨a.lazy id, m⟩), ?_, ?_, ?_⟩
    subset_rfl inside
  · simp [Store.addEvents, left, told]
  · simp [Store.addEvents, right, told]
  · have now : a.held (a.lazy id) = some p := by
      rw [Store.heldNow, found]
      exact held
    unfold living at lives ⊢
    rw [← List.append_assoc]
    exact lives.goOn (now ▸ .holds (.rests _)) (fun _ => rfl) now fun _ _ => rfl

section
variable {before : List Entry} {l : Lazy} {c : Cell}

theorem evaluationMeets (limit : Nat) {a s : Store}
    (begun : Aligned (Evaluating start only past before l c) tell tell' a s)
    (based : Over a.known c.env) :
    Meets (.telling (evaluatingKept start only past before l c) tell tell') a.known
      (build (evalWith (callFunction limit)) c.tag c.body c.env a)
      (build (evalWith (callFunction limit)) c.tag c.body c.env s) := by
  have calls := callFunctionCoupled (K := .telling (evaluatingKept start only past before l c) tell
    tell') limit
  exact buildCoupled (fun known env e bound => evalCoupled calls e known bound) c.tag c.body based
    a s begun subset_rfl

theorem Aligned.untouched {a s : Store}
    (ended : Aligned (Evaluating start only past before l c) tell tell' a s) :
    a.cell? l.name = some c ∧ a.made l.name = l.number := by
  obtain ⟨_, _, _, _, _, _, evaluating⟩ := ended
  exact ⟨evaluating.cell, evaluating.made⟩

theorem Aligned.evaluated {a s a' s' : Store} {more : List Moment} {held : Option Value}
    (ended : Aligned (Evaluating start only past before l c) tell tell' a s)
    (empty : c.built = none) (life : Life none (.applied :: .began :: more) held)
    (cells : a'.cells = s'.cells) (name : a'.name = s'.name) (closed : a'.Closed)
    (left : a'.events.toList = a.events.toList ++ told tell (more.map fun m => .sight ⟨l, m⟩))
    (right : s'.events.toList = s.events.toList ++ told tell' (more.map fun m => .sight ⟨l, m⟩))
    (made : ∀ k, a'.made k = a.made k) (now : a'.held l = held)
    (cell : ∀ k, k ≠ l.name → a'.cell? k = a.cell? k) :
    Aligned (living start only past) tell tell' a' s' := by
  obtain ⟨_, _, _, entries, before', before'', ⟨events, rfl, lives⟩, number, there, _⟩ := ended
  have same : a.lazy l.name = l := congrArg (Lazy.mk l.name) number
  have empty : a.held (a.lazy l.name) = none := by
    rw [Store.heldNow, there]
    exact empty
  have later := lives.goOnAround (empty ▸ life : Life _ ([.applied, .began] ++ more) held) made
    (same.symm ▸ now) cell
  rw [same] at later
  refine ⟨cells, name, closed, _, ?_, ?_, (List.append_assoc .. ▸ later : Lives ..)⟩
  · rw [left, before', ← toldAppend]
    simp only [List.append_assoc]
  · rw [right, before'', ← toldAppend]
    simp only [List.append_assoc]

end

theorem forceEmpty (limit : Nat) {a s : Store} {id : Name}
    (aligned : Aligned (living start only past) tell tell' a s) {tag : Option Text} {body : Expr}
    {env : Env} (found : a.cell? id = some ⟨id, tag, body, env, none⟩) :
    Meets (.lives start only past tell tell') a.known (forceTelling tell (callFunction limit) id a)
      (forceTelling tell' (callFunction limit) id s) := by
  have found' : s.cell? id = some ⟨id, tag, body, env, none⟩ := aligned.cell id ▸ found
  have lazy := aligned.lazy id
  have inside := (aligned.closed id _ found).1
  obtain ⟨cells, name, closed, entries, left, right, lives⟩ := aligned
  have begun : Aligned (Evaluating start only past entries (a.lazy id) ⟨id, tag, body, env, none⟩)
      tell tell' (a.evaluating tell (a.lazy id)) (s.evaluating tell' (a.lazy id)) := by
    refine ⟨cells, by simp [Store.evaluating, Store.naming, name], closed, _, ?_, ?_,
      ⟨⟨[], rfl, ?_⟩, rfl, found, a.name.stage, 0, 0, rfl⟩⟩
    · simp [Store.evaluating, Store.addEvents, Store.naming, left, told]
    · simp [Store.evaluating, Store.addEvents, Store.naming, right, told]
    · rw [List.map_nil, List.append_nil]
      exact lives
  have meets := evaluationMeets limit begun inside
  generalize run : build _ _ _ _ (a.evaluating tell (a.lazy id)) = x at meets
  generalize run' : build _ _ _ _ (s.evaluating tell' (a.lazy id)) = y at meets
  rw [← lazy] at run'
  obtain ⟨exit, after⟩ := x
  obtain ⟨exit', after'⟩ := y
  cases meets with
  | short cut =>
    obtain rfl : exit' = .exhausted := cut
    rw [forceEndsShort tell' _ found' run']
    exact .short rfl
  | @raised fault _ _ ended grown =>
    -- Nothing is applied while the thunk is evaluated, so that the cell has stayed empty.
    obtain ⟨cell, made⟩ := ended.untouched
    rw [forceEndsRaised tell _ found run, forceEndsRaised tell' _ found' run', lazy]
    refine .raised (ended.evaluated rfl (.raises fault (.rests none)) ended.cells name ended.closed
      ?_ ?_ (fun _ => rfl) ?_ fun _ _ => rfl) grown
    · simp [Store.addEvents, Store.naming, told]
    · simp [Store.addEvents, Store.naming, told]
    · exact (if_pos made).trans (congrArg (Option.bind · Cell.built) cell)
  | @done p _ _ ended grown based =>
    obtain ⟨cell, made⟩ := ended.untouched
    have cell' : after'.cell? id = some ⟨id, tag, body, env, none⟩ := (ended.cell id).trans cell
    have larger := Store.knownAdded after ⟨id, tag, body, env, some p⟩
    have value := Cellular.grow larger based
    rw [forceEndsDone tell _ found run cell, forceEndsDone tell' _ found' run' cell', lazy]
    refine .done (ended.evaluated rfl (.returns p (.rests (some p))) ?_ name ?_ ?_ ?_ ?_ ?_ ?_)
      (grown.trans larger) value
    · simp only [Store.addCell, Store.addEvents, Store.naming, ended.cells]
    · exact ended.closed.addCell ⟨Cellular.grow (grown.trans larger) inside, by simpa using value⟩
    · simp [Store.addCell, Store.addEvents, Store.naming, told]
    · simp [Store.addCell, Store.addEvents, Store.naming, told]
    · exact fun k => (Store.madeAdded after _ k).trans (by simp)
    · exact Store.heldFilled after made tag body env p
    · exact fun k other => (Store.cellAdded after _ _).trans (if_neg other.symm)

theorem forceTold {limit : Nat}
    (calls : Callers (.lives start only past tell tell') (callTelling tell only limit)
      (callTelling tell' only limit)) {id : Name} (there : id ∈ known) :
    Coupled (.lives start only past tell tell') known
      (forceTelling tell (if only id then callFunction limit else callTelling tell only limit) id)
      (forceTelling tell' (if only id then callFunction limit else callTelling tell' only limit)
        id) := by
  cases chosen : only id with
  | false => exact forceOther calls chosen there
  | true =>
    intro a s aligned grown
    obtain ⟨⟨name, tag, body, env, built⟩, found⟩ := Option.isSome_iff_exists.mp (grown there)
    obtain rfl : name = id := Store.cellNamed found
    cases built with
    | some p => exact forceFull _ _ aligned found rfl
    | none => exact forceEmpty limit aligned found

theorem callTellingCoupled (limit : Nat) : Callers (.lives start only past tell tell')
    (callTelling tell only limit) (callTelling tell' only limit) := by
  let forcing (t : Teller) (limit : Nat) (id : Name) :=
    forceTelling t (if only id then callFunction limit else callTelling t only limit) id
  have same (t : Teller) (limit : Nat) : callForcing (forcing t) limit = callTelling t only limit :=
    callTellingIsForcing t only limit
  have forces : ∀ less < limit,
      Callers (.lives start only past tell tell') (callForcing (forcing tell) less)
        (callForcing (forcing tell') less) → ∀ known, ∀ id ∈ known,
          Coupled (.lives start only past tell tell') known (forcing tell less id)
            (forcing tell' less id) := by
    intro less _ calls known id there
    rw [same, same] at calls
    exact forceTold calls there
  have coupled := callForcingCoupled (K := .lives start only past tell tell') forces limit
    (Nat.le_refl limit)
  rwa [same, same] at coupled

end

end ParseKit.Script
