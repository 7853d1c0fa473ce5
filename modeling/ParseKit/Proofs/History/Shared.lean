import Mathlib.Order.Filter.AtTopBot.Basic
import ParseKit.Proofs.History.Afresh
import ParseKit.Proofs.Watching

/-! Shared parsers in any state of the cells. The expression of a cell gives the same parser in each,
and an application of the shared parser answers as an application of that parser does. -/
namespace ParseKit.Script
open Filter (Eventually atTop)

/- A cell that is made while a program is prepared, the parser that its expression gives in steps,
and the cells that are made meanwhile. -/
structure Thunk where
  cell : Cell
  parser : Value
  cells : List Cell
  limit : Nat
  stage : cell.name.stage = .preparing
  isParser : parser.isParser = true
  fresh : Fresh cell.name cells
  gives : ∀ n ≥ limit, ∀ w, ∃ events name,
    buildPlainly n cell w = (.done parser, w.adding cells events name)

theorem buildsEverywhere {w after : Store} {c : Cell} {limit : Nat} {exit : Exit Value}
    (closed : w.Closed) (based : Over w.known c.env)
    (run : buildPlainly limit c w = (exit, after)) (ended : exit ≠ .exhausted) :
    ∃ cells events name, after = w.adding cells events name ∧ Fresh c.name cells ∧ after.Closed ∧
      (∀ v, exit = .done v → Over after.known v) ∧
      ∀ n ≥ limit, ∀ s, buildPlainly n c s = (exit, s.adding cells events name) := by
  have each (s : Store) : ∃ cells events name, after = w.adding cells events name ∧
      Fresh c.name cells ∧ after.Closed ∧ (∀ v, exit = .done v → Over after.known v) ∧
        buildPlainly limit c s = (exit, s.adding cells events name) := by
    have alike := buildsAlike closed s based limit
    rw [run] at alike
    generalize there : buildPlainly limit c s = q at alike
    cases alike with
    | short => exact absurd rfl ended
    | done fresh closed' inside =>
      refine ⟨_, _, _, rfl, fresh, closed', ?_, rfl⟩
      rintro _ ⟨⟩
      exact inside
    | raised fresh closed' => exact ⟨_, _, _, rfl, fresh, closed', nofun, rfl⟩
  obtain ⟨cells, events, name, rfl, fresh, closed', inside, _⟩ := each w
  refine ⟨cells, events, name, rfl, fresh, closed', inside, fun n enough s => ?_⟩
  -- Whatever the store is, what is added to `w` is the same.
  obtain ⟨cells', events', name', same, _, _, _, there⟩ := each s
  obtain ⟨rfl, rfl, rfl⟩ := Store.addingInj same
  exact (buildPlainlyBelow enough c).ends there ended

theorem thunkOfRun {w : Store} {c : Cell} {limit : Nat} {v : Value} {after : Store}
    (closed : w.Closed) (based : Over w.known c.env) (stage : c.name.stage = .preparing)
    (isParser : v.isParser = true) (run : buildPlainly limit c w = (.done v, after)) :
    ∃ (t : Thunk) (events : List Event) (name : Name), t.cell = c ∧ t.parser = v ∧
      after = w.adding t.cells events name ∧ after.Closed ∧ Over after.known v := by
  obtain ⟨cells, events, name, rfl, fresh, closed', inside, everywhere⟩ :=
    buildsEverywhere closed based run nofun
  exact ⟨⟨c, v, cells, limit, stage, isParser, fresh, fun n enough s =>
    ⟨events, name, everywhere n enough s⟩⟩, events, name, rfl, rfl, rfl, closed', inside v rfl⟩

namespace Thunk
variable (t : Thunk)

structure In (w : Store) : Prop where
  cell : w.cell? t.cell.name = some t.cell
  cells : ∀ id c, latest t.cells id = some c → w.cell? id = some c

variable {t} {w : Store}

theorem made {n : Nat} {exit : Exit Value} {cells : List Cell} {events : List Event} {name : Name}
    (run : buildPlainly n t.cell w = (exit, w.adding cells events name))
    (ended : exit ≠ .exhausted) : exit = .done t.parser ∧ cells = t.cells := by
  obtain ⟨more, next, gives⟩ := t.gives (max n t.limit) (Nat.le_max_right ..) w
  have later := (buildPlainlyBelow (Nat.le_max_left n t.limit) t.cell).ends run ended
  rw [gives] at later
  obtain ⟨rfl, same⟩ := Prod.mk.inj later
  exact ⟨rfl, (Store.addingInj same).1.symm⟩

namespace In

theorem naming (there : t.In w) (name : Name) : t.In (w.naming name) := ⟨there.cell, there.cells⟩

theorem addEvent (there : t.In w) (e : Event) : t.In (w.addEvent e) := ⟨there.cell, there.cells⟩

theorem share (there : t.In w) {shared : Nat} {c : Cell}
    (named : c.name = .outer .stepping 0 shared) : t.In (w.addCell c) where
  cell := by
    rw [Store.cellAdded, if_neg, there.cell]
    intro same
    have stage := t.stage
    rw [← same, named] at stage
    cases stage
  cells id d found := by
    obtain ⟨mem, rfl⟩ := latestMem found
    obtain ⟨_, _, inner⟩ := t.fresh d mem
    rw [Store.cellAdded, if_neg, there.cells _ d found]
    rw [named, inner]
    nofun

theorem rebuilt (there : t.In w) {n : Nat} {c : Cell} {exit : Exit Value} {cells : List Cell}
    {events more : List Event} {name next : Name} (found : w.cell? c.name = some c)
    (run : buildPlainly n c w = (exit, w.adding cells events name)) (ended : exit ≠ .exhausted)
    (fresh : Fresh c.name cells) : t.In (w.adding cells more next) := by
  refine ⟨?_, fun id d last => ?_⟩
  · rw [Store.cellAdding, fresh.other, Option.none_or, there.cell]
    intro shared same
    have stage := t.stage
    rw [same] at stage
    cases stage
  · rw [Store.cellAdding]
    by_cases same : c.name = t.cell.name
    · rw [same, there.cell] at found
      obtain rfl := Option.some.inj found
      obtain ⟨_, rfl⟩ := made run ended
      rw [last, Option.some_or]
    · rw [fresh.other, Option.none_or, there.cells id d last]
      rintro shared rfl
      obtain ⟨mem, named⟩ := latestMem last
      obtain ⟨_, _, inner⟩ := t.fresh d mem
      exact same (Name.inner.inj (named.symm.trans inner)).1

theorem again (there : t.In w) (events : List Event) (name id : Name) :
    (w.adding t.cells events name).cell? id = w.cell? id := by
  rw [Store.cellAdding]
  cases last : latest t.cells id with
  | none => rw [Option.none_or]
  | some c => rw [Option.some_or, there.cells id c last]

theorem kept (there : t.In w) : t.In (w.adding t.cells [] w.name) :=
  ⟨(there.again ..).trans there.cell, fun id c last => (there.again ..).trans (there.cells id c last)⟩

end In

end Thunk

/- What a session answers as soon as its limit is large enough: this, but for what filling cells
puts down, which is left out of a quiet session. -/
structure Answering (env : Env) (store : Store) (left : Text) (steps : List Step)
    (answers : List (Answer StepResult)) : Prop where
  ends : ∀ answer ∈ answers, answer.exit ≠ .exhausted
  quiet : ∀ᶠ n in atTop, sessionFrom (callPlainly true n) env store left steps = answers
  heard : ∀ᶠ n in atTop, List.Forall₂ (Comparable false true)
    (sessionFrom (call n) env store left steps) answers

end ParseKit.Script
