import ParseKit.Proofs.Exchange.Calling
import ParseKit.Proofs.History.Coupling

/-! Stores of two sides on which trace points stand at different places. Cells have the same names on
both sides and are alike in all they hold, and of what is told only the records of those points are
more on one side than on the other. Main statement: where parsers of cells are built on application,
calls in marked code go along calls in the code that is meant. -/
namespace ParseKit.Script

/- Events of two sides, seen alike, but for the records of trace points with such labels. -/
inductive Told (left right : Text → Prop) : List Event → List Event → Prop where
  | nil : Told left right [] []
  | both {d e : Event} {es es' : List Event} (same : d.seen = e.seen)
      (others : Told left right es es') : Told left right (d :: es) (e :: es')
  | left {label : Text} (more : left label) (front : Text) (cut : Bool) {es es' : List Event}
      (others : Told left right es es') :
      Told left right (.record (.passed label front cut) :: es) es'
  | right {label : Text} (more : right label) (front : Text) (cut : Bool) {es es' : List Event}
      (others : Told left right es es') :
      Told left right es (.record (.passed label front cut) :: es')

namespace Told
variable {left right : Text → Prop} {es es' fs fs' : List Event}

theorem append (first : Told left right es es') (second : Told left right fs fs') :
    Told left right (es ++ fs) (es' ++ fs') := by
  induction first with
  | nil => exact second
  | both same _ ih => exact .both same ih
  | left more front cut _ ih => exact .left more front cut ih
  | right more front cut _ ih => exact .right more front cut ih

theorem symm (told : Told left right es es') : Told right left es' es := by
  induction told with
  | nil => exact .nil
  | both same _ ih => exact .both same.symm ih
  | left more front cut _ ih => exact .right more front cut ih
  | right more front cut _ ih => exact .left more front cut ih

theorem weaken {left' right' : Text → Prop} (told : Told left right es es')
    (lefts : ∀ label, left label → left' label) (rights : ∀ label, right label → right' label) :
    Told left' right' es es' := by
  induction told with
  | nil => exact .nil
  | both same _ ih => exact .both same ih
  | left more front cut _ ih => exact .left (lefts _ more) front cut ih
  | right more front cut _ ih => exact .right (rights _ more) front cut ih

end Told

theorem toldSeen {left right : Text → Prop} (noLeft : ∀ l, ¬ left l) (noRight : ∀ l, ¬ right l)
    {es es' : List Event} (told : Told left right es es') : es.map Event.seen = es'.map Event.seen := by
  induction told with
  | nil => rfl
  | both same _ ih => exact congrArg₂ List.cons same ih
  | left more => exact absurd more (noLeft _)
  | right more => exact absurd more (noRight _)

def Exit.seen : Exit Value → Exit Value
  | .done v => .done v.seen
  | exit => exit

section
variable (X : Exchange)

structure Cell.Alike (c c' : Cell) : Prop where
  name : X.cells c.name c'.name
  tag : c.tag = c'.tag
  body : c'.body = c.body.meant X.onRight
  env : c.env.Alike X c'.env
  built : Option.Rel (Value.Alike X) c.built c'.built

structure Store.Alike (a s : Store) : Prop where
  cell : a.name.ofCell = s.name.ofCell
  cells : ∀ id, Option.Rel (Cell.Alike X) (a.cell? id) (s.cell? id)
  events : Told X.LoneLeft X.LoneRight a.events.toList s.events.toList

end

section
variable {X : Exchange} {a s : Store}

theorem Cell.alikeItself (itself : X.Reflexive) (c : Cell) : c.Alike X c := by
  refine ⟨itself.cells c.name, rfl, ?_, Env.alikeItself itself c.env, ?_⟩
  · rw [itself.clear, Expr.meantClear]
  · cases c.built with
    | none => exact .none
    | some v => exact .some (Value.alikeItself itself v)

theorem Cell.Alike.relates (own : X.cells = Eq) {c c' : Cell} (alike : c.Alike X c') (id : Name)
    (others : Option.Rel (Cell.Alike X) (a.cell? id) (s.cell? id)) :
    Option.Rel (Cell.Alike X) ((a.addCell c).cell? id) ((s.addCell c').cell? id) := by
  have named : c.name = c'.name := own ▸ alike.name
  rw [Store.cellAdded, Store.cellAdded, ← named]
  split
  · exact .some alike
  · exact others

namespace Name

@[simp] theorem nextOfCell (name : Name) : name.next.ofCell = name.ofCell := by cases name <;> rfl

theorem nextCellOfCell {m n : Name} (same : m.ofCell = n.ofCell) :
    m.nextCell.ofCell = n.nextCell.ofCell := by
  cases m <;> cases n <;> simp_all [ofCell, nextCell]

theorem stageSame {m n : Name} (same : m.ofCell = n.ofCell) : m.stage = n.stage := by
  cases m <;> cases n <;> simp_all [ofCell, stage]

end Name

namespace Store.Alike
variable (alike : a.Alike X s)
include alike

theorem naming {m n : Name} (same : m.ofCell = n.ofCell) :
    Store.Alike X (a.naming m) (s.naming n) := ⟨same, alike.cells, alike.events⟩

theorem namedLeft : Store.Alike X (a.naming a.name.next) s :=
  ⟨(Name.nextOfCell _).trans alike.cell, alike.cells, alike.events⟩

theorem namedRight : Store.Alike X a (s.naming s.name.next) :=
  ⟨alike.cell.trans (Name.nextOfCell _).symm, alike.cells, alike.events⟩

theorem addCell (own : X.cells = Eq) {c c' : Cell} (cell : c.Alike X c') :
    Store.Alike X (a.addCell c) (s.addCell c') :=
  ⟨alike.cell, fun id => cell.relates own id (alike.cells id), alike.events⟩

theorem addEvents {es fs : List Event} (told : Told X.LoneLeft X.LoneRight es fs) {a' s' : Store}
    (left : a' = ⟨a.cells, a.events ++ es.toArray, a.name⟩)
    (right : s' = ⟨s.cells, s.events ++ fs.toArray, s.name⟩) : Store.Alike X a' s' := by
  subst left right
  exact ⟨alike.cell, alike.cells, by simpa using alike.events.append told⟩

end Store.Alike

def Exchange.telling (X : Exchange) (own : X.cells = Eq) : Accord X where
  agree := Store.Alike X
  cell alike := own ▸ alike.cell
  next alike := alike.naming (by simpa using alike.cell)
  nextLeft _ _ alike := alike.namedLeft
  nextRight _ _ alike := alike.namedRight
  note {_ _ v v'} alike value := alike.addEvents
    (.both (d := .note v) (e := .note v') (congrArg Event.note value.seen) .nil) rfl rfl
  record r alike := alike.addEvents (.both (d := .record r) rfl .nil) rfl rfl
  recordLeft front more lone alike := alike.addEvents (.left lone front more .nil) rfl rfl
  recordRight front more lone alike := alike.addEvents (.right lone front more .nil) rfl rfl
  share _ _ _ _ alike bound :=
    (alike.naming (Name.nextCellOfCell alike.cell)).addCell own
      ⟨own ▸ alike.cell, rfl, rfl, bound, .none⟩

section
variable {own : X.cells = Eq} {α β : Type} {R : α → β → Prop} {e : Env → Expr → Run Value}
  {f : Nat → Env → Expr → Run Value}

theorem buildAlong {K : Accord X} (evals : EvalsAlong K e f) (tag : Option Text) (body : Expr)
    {env env' : Env} (bound : env.Alike X env') : Along K (Value.Alike X) (build e tag body env)
      (fun n => build (f n) tag (body.meant X.onRight) env') := by
  cases tag with
  | none => exact evals body bound
  | some t => exact (Along.note (.str t)).bind fun _ _ _ => evals body bound

theorem buildingAlong {x : Run α} {y : Nat → Run β} (along : Along (X.telling own) R x y)
    (id : Name) : Along (X.telling own) R (Run.building id x) (fun n => Run.building id (y n)) := by
  intro a s alike ended
  have inside : Store.Alike X (a.naming (.inner id a.name.stage 0 0))
      (s.naming (.inner id s.name.stage 0 0)) := alike.naming (by
    rw [Name.stageSame alike.cell])
  obtain ⟨q, same, joined⟩ := along _ _ inside ended
  refine ⟨(q.1, q.2.naming s.name), same.mono fun n run => ?_, ?_⟩
  · simp only [Run.building, run]
  · simp only [Run.building]
    generalize x (a.naming (.inner id a.name.stage 0 0)) = p at joined
    cases joined with
    | done agree alikes => exact .done (Store.Alike.naming agree alike.cell) alikes
    | raised agree => exact .raised (Store.Alike.naming agree alike.cell)

theorem cellAlong (id : Name) :
    Along (X.telling own) (Option.Rel (Cell.Alike X)) (Run.cell? id) (fun _ => Run.cell? id) :=
  fun _ s alike _ => ⟨(.done (s.cell? id), s), .of_forall fun _ => rfl, .done alike (alike.cells id)⟩

theorem addAlong {c c' : Cell} (cell : c.Alike X c') : Along (X.telling own) (fun _ _ => True)
    (Eff.modify (Store.addCell c)) (fun _ => Eff.modify (Store.addCell c')) :=
  fun _ s alike _ =>
    ⟨(.done (), s.addCell c'), .of_forall fun _ => rfl, .done (alike.addCell own cell) trivial⟩

theorem fillAlong (id : Name) {v v' : Value} (value : v.Alike X v') :
    Along (X.telling own) (Value.Alike X) (Run.fill id v) (fun _ => Run.fill id v') := by
  refine (cellAlong id).bind fun o o' found => ?_
  cases found with
  | none => exact .done value
  | @some c c' cell =>
    obtain ⟨name, tag, body, env, built⟩ := c
    obtain ⟨name', tag', body', env', built'⟩ := c'
    have filled := cell.built
    cases filled with
    | some first => exact .done first
    | none =>
      have full : Cell.Alike X ⟨name, tag, body, env, some v⟩ ⟨name', tag', body', env', some v'⟩ :=
        ⟨cell.name, cell.tag, cell.body, cell.env, .some value⟩
      exact (addAlong full).bind fun _ _ _ => .done value

theorem forceAlong (evals : EvalsAlong (X.telling own) e f) (id : Name) :
    Along (X.telling own) (Value.Alike X) (force e id) (fun n => force (f n) id) := by
  refine (cellAlong id).bind fun o o' found => ?_
  cases found with
  | none => exact .short
  | @some c c' cell =>
    obtain ⟨name, tag, body, env, built⟩ := c
    obtain ⟨name', tag', body', env', built'⟩ := c'
    have filled := cell.built
    cases filled with
    | some first => exact .done first
    | none =>
      obtain ⟨_, rfl, rfl, bound, _⟩ := cell
      exact (buildingAlong (buildAlong evals tag body bound) id).bind fun _ _ value =>
        fillAlong id value

end

def forceMarked (M : Marking) (call : Caller) (_ : Nat) (id : Name) : Run Value :=
  force (evalMarked M call) id

theorem callAlong (own : X.cells = Eq) (unswapped : ∀ v v', ¬ X.swapped v v') (m : Nat) :
    CallersAlong (X.telling own) (callMarked X.onLeft (forceMarked X.onLeft) m)
      (fun k => call (k + m)) := by
  have along : CallersAlong (X.telling own) (callMarked X.onLeft (forceMarked X.onLeft) m)
      (fun k => callForcing (fun limit => force (evalWith (call limit))) (k + m)) := by
    refine callsAlong (fun m calls id id' same => ?_) (fun m calls v v' swapped => ?_) m
    · rw [own] at same
      simp only [callIsForcing] at calls
      exact same ▸ forceAlong (evalsAlong calls) id
    · exact absurd swapped (unswapped v v')
  simp only [callIsForcing] at along
  exact @along

end
end ParseKit.Script
