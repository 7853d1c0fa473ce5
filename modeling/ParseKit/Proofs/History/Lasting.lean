import ParseKit.Proofs.History.Shared

/-! What lasts where the parsers of cells are built anew. No cell is ever filled then, and what is made
within a cell is made again as it was whenever the cell is built again. Main statements: whatever is
called, the cells that were there stay as they were; and what sessions leave is such a store with cells
filled. -/
namespace ParseKit.Script

namespace Name

def Before (count : Nat) : Name → Prop
  | outer stage _ cells => stage = .preparing ∨ cells < count
  | inner cell stage .. => stage = .preparing ∨ cell.Before count

theorem Before.grow {m n : Nat} (le : m ≤ n) : {id : Name} → id.Before m → id.Before n
  | outer .., before => before.imp_right fun less => Nat.lt_of_lt_of_le less le
  | inner .., before => before.imp_right fun inside => inside.grow le

theorem beforePreparing (count : Nat) {id : Name} (stage : id.stage = .preparing) :
    id.Before count := by
  cases id <;> exact .inl stage

def count : Name → Nat
  | outer _ _ cells => cells
  | inner _ _ _ cells => cells

theorem countNext (name : Name) : name.next.count = name.count := by cases name <;> rfl

end Name

/- Building the cell ends, in whatever store, and leaves these cells. -/
def Cell.Leaves (c : Cell) (cells : List Cell) : Prop :=
  ∃ limit, ∀ n ≥ limit, ∀ w, ∃ exit events name,
    buildPlainly n c w = (exit, w.adding cells events name) ∧ exit ≠ .exhausted

theorem Cell.Leaves.once {c : Cell} {cells cells' : List Cell} (first : c.Leaves cells)
    (second : c.Leaves cells') : cells = cells' := by
  obtain ⟨m, leaves⟩ := first
  obtain ⟨n, leaves'⟩ := second
  obtain ⟨exit, events, name, run, _⟩ := leaves (max m n) (Nat.le_max_left m n) .empty
  obtain ⟨exit', events', name', run', _⟩ := leaves' (max m n) (Nat.le_max_right m n) .empty
  obtain ⟨_, same⟩ := Prod.mk.inj (run.symm.trans run')
  exact (Store.addingInj same).1

namespace Store

/- Where a step goes on. No cell has been filled, and what has been made within a cell is what
building it leaves. -/
structure Settled (w : Store) : Prop where
  closed : w.Closed
  empty : ∀ id c, w.cell? id = some c → c.built = none
  named : ∃ serial, w.name = .outer .stepping serial w.name.count
  before : ∀ id ∈ w.known, id.Before w.name.count
  left : ∀ id shared d, w.cell? (.inner id .stepping 0 shared) = some d →
    ∃ c cells, w.cell? id = some c ∧ c.Leaves cells ∧
      latest cells (.inner id .stepping 0 shared) = some d

structure Lasts (w v : Store) : Prop where
  cells : ∀ id c, w.cell? id = some c → v.cell? id = some c
  count : w.name.count ≤ v.name.count

theorem Lasts.refl (w : Store) : w.Lasts w := ⟨fun _ _ => id, Nat.le_refl _⟩

theorem Lasts.trans {w v u : Store} (first : w.Lasts v) (second : v.Lasts u) : w.Lasts u :=
  ⟨fun id c found => second.cells id c (first.cells id c found), first.count.trans second.count⟩

theorem Lasts.next (w : Store) : w.Lasts (w.naming w.name.next) :=
  ⟨fun _ _ => id, Nat.le_of_eq (Name.countNext w.name).symm⟩

theorem Lasts.known {w v : Store} (lasts : w.Lasts v) : w.known ⊆ v.known := by
  intro id there
  obtain ⟨c, found⟩ := Option.isSome_iff_exists.mp there
  simp [lasts.cells id c found]

def begun (w : Store) : Store := ⟨w.atStep.cells, #[], w.atStep.name⟩

theorem Preparing.settled {w : Store} (preparing : w.Preparing)
    (empty : ∀ id c, w.cell? id = some c → c.built = none) : w.begun.Settled where
  closed := preparing.closed
  empty := empty
  named := ⟨0, rfl⟩
  before id there := Name.beforePreparing 0 (preparing.cells id there)
  left id shared d found := by
    have there : w.cell? (.inner id .stepping 0 shared) = some d := found
    cases preparing.cells (.inner id .stepping 0 shared) (by simp [there])

/- The same store, with cells filled by what building them gives. -/
structure Fills (s w : Store) : Prop where
  cells : ∃ limit, Anew limit w s
  name : s.name = w.name
  events : s.events = w.events

theorem Settled.fills {w : Store} (settled : w.Settled) : w.Fills w :=
  ⟨⟨0, .unused settled.closed settled.empty⟩, rfl, rfl⟩

/- What the steps of sessions leave in which no thunk applies a parser. -/
inductive After (limit : Nat) (env : Env) (base : Store) : Store → Prop where
  | none : After limit env base base
  | step {s after : Store} {step : Step} {text : Text} {answer : Answer StepResult}
      (before : After limit env base s)
      (run : step.answered (callPlainly false limit) env text s = (answer, after))
      (ends : answer.exit ≠ .exhausted) : After limit env base after

theorem After.beside {limit : Nat} {env : Env} {base s : Store} (preparing : base.Preparing)
    (bound : Over base.known env) (after : After limit env base s) : Beside base limit base s := by
  induction after with
  | none => exact .unused preparing
  | @step s after step text answer before run ends ih =>
    rcases answeredBeside preparing false false .right limit (fun wrong => nomatch wrong)
      (fun _ => Nat.le_refl limit) ih bound step text with short | ⟨_, beside⟩
    · rw [run] at short
      exact absurd short ends
    · rw [run] at beside
      exact beside.afresh preparing

theorem After.fills {limit : Nat} {env : Env} {base s : Store} (preparing : base.Preparing)
    (empty : ∀ id c, base.cell? id = some c → c.built = Option.none) (bound : Over base.known env)
    (after : After limit env base s) : s.begun.Fills base.begun := by
  have beside := after.beside preparing bound
  refine ⟨⟨limit, beside.later, preparing.closed, empty, fun id c v found filled => ?_⟩, rfl, rfl⟩
  rcases beside.built id c v found filled with there | built
  · rw [empty id c there] at filled
    cases filled
  · exact built

namespace Settled
variable {w : Store} (settled : w.Settled)
include settled

theorem stage : w.name.stage = .stepping := by
  obtain ⟨serial, named⟩ := settled.named
  rw [named]
  rfl

theorem next : (w.naming w.name.next).Settled := by
  obtain ⟨serial, named⟩ := settled.named
  have same := Name.countNext w.name
  refine ⟨settled.closed, settled.empty, ⟨serial + 1, ?_⟩, fun id there => ?_, settled.left⟩
  · show w.name.next = .outer .stepping (serial + 1) w.name.next.count
    rw [same, named]
    rfl
  · show id.Before w.name.next.count
    rw [same]
    exact settled.before id there

theorem addEvent (e : Event) : (w.addEvent e).Settled :=
  ⟨settled.closed, settled.empty, settled.named, settled.before, settled.left⟩

theorem new {id : Name} (there : id ∈ w.known) : id ≠ .outer .stepping 0 w.name.count := by
  rintro rfl
  rcases settled.before _ there with stage | less
  · cases stage
  · exact absurd less (Nat.lt_irrefl _)

theorem share (tag : Option Text) (body : Expr) {env : Env} (based : Over w.known env) :
    let after := (w.naming w.name.nextCell).addCell ⟨w.name.ofCell, tag, body, env, none⟩
    after.Settled ∧ w.Lasts after := by
  obtain ⟨serial, named⟩ := settled.named
  generalize count : w.name.count = k at named
  have cell : w.name.ofCell = .outer .stepping 0 k := by rw [named]; rfl
  have next : w.name.nextCell = .outer .stepping serial (k + 1) := by rw [named]; rfl
  rw [cell, next]
  have other (id : Name) (c : Cell) (found : w.cell? id = some c) :
      ((w.naming (.outer .stepping serial (k + 1))).addCell
        ⟨.outer .stepping 0 k, tag, body, env, none⟩).cell? id = some c := by
    have old : id ≠ .outer .stepping 0 w.name.count := settled.new (by simp [found])
    rw [count] at old
    rw [Store.cellAdded, if_neg (Ne.symm old), Store.cellNaming, found]
  refine ⟨⟨?_, ?_, ⟨serial, rfl⟩, ?_, ?_⟩, other, ?_⟩
  · exact Closed.addCell settled.closed (Cellular.grow (knownAdded _ _) ⟨based, by simp⟩)
  · intro id c found
    rw [cellAdded] at found
    split at found
    · rw [← Option.some.inj found]
    · exact settled.empty id c found
  · intro id there
    rw [memKnown, cellAdded] at there
    split at there
    · rename_i same
      exact same ▸ .inr (Nat.lt_succ_self k)
    · exact (settled.before id there).grow (count ▸ Nat.le_succ k)
  · intro id shared d found
    rw [cellAdded, if_neg nofun] at found
    obtain ⟨c, cells, there, leaves, last⟩ := settled.left id shared d found
    exact ⟨c, cells, other id c there, leaves, last⟩
  · exact count ▸ Nat.le_succ k

theorem adding {c : Cell} {cells : List Cell} (found : w.cell? c.name = some c)
    (fresh : Fresh c.name cells) (leaves : c.Leaves cells)
    (closed : (w.adding cells [] w.name).Closed) :
    (w.adding cells [] w.name).Settled ∧ w.Lasts (w.adding cells [] w.name) := by
  have lasts (id : Name) (d : Cell) (there : w.cell? id = some d) :
      (w.adding cells [] w.name).cell? id = some d := by
    rw [cellAdding]
    cases new : latest cells id with
    | none => rw [Option.none_or, there]
    | some e =>
      obtain ⟨mem, same⟩ := latestMem new
      obtain ⟨_, shared, inner⟩ := fresh e mem
      obtain rfl := same.symm.trans inner
      obtain ⟨c', cells', found', leaves', last⟩ := settled.left _ _ _ there
      obtain rfl := Option.some.inj (found.symm.trans found')
      rw [leaves.once leaves', last] at new
      rw [new, Option.some_or]
  refine ⟨⟨closed, ?_, settled.named, ?_, ?_⟩, lasts, Nat.le_refl _⟩
  · intro id d there
    rw [cellAdding] at there
    cases new : latest cells id with
    | none => exact settled.empty id d (by simpa [new] using there)
    | some e =>
      obtain rfl : e = d := by simpa [new] using there
      exact (fresh e (latestMem new).1).1
  · intro id there
    rw [memKnown, cellAdding] at there
    cases new : latest cells id with
    | none => exact settled.before id (by simpa [new] using there)
    | some e =>
      obtain ⟨mem, same⟩ := latestMem new
      obtain ⟨_, shared, inner⟩ := fresh e mem
      obtain rfl := same.symm.trans inner
      exact .inr (settled.before c.name (by simp [found]))
  · intro id shared d there
    rw [cellAdding] at there
    cases new : latest cells (.inner id .stepping 0 shared) with
    | none =>
      rw [new, Option.none_or] at there
      obtain ⟨c', cells', found', leaves', last⟩ := settled.left id shared d there
      exact ⟨c', cells', lasts _ _ found', leaves', last⟩
    | some e =>
      obtain rfl : e = d := by simpa [new] using there
      obtain ⟨mem, same⟩ := latestMem new
      obtain ⟨_, shared', inner⟩ := fresh e mem
      obtain ⟨rfl, _⟩ := Name.inner.inj (same.symm.trans inner)
      exact ⟨c, cells, lasts _ _ found, leaves, new⟩

end Settled
end Store

theorem Side.evenly : Side.left = .left → 0 = 0 := fun _ => rfl

def Coupling.lasting (base : Store) : Coupling where
  side := .left
  ahead := 0
  level := Side.evenly
  agree a s := a = s ∧ a.Settled ∧ base.Lasts a
  name agree := by rw [agree.1]
  next := by
    rintro a s ⟨rfl, settled, lasts⟩
    exact ⟨rfl, settled.next, lasts.trans (.next a)⟩
  event := by
    rintro a s e ⟨rfl, settled, cells, count⟩
    exact ⟨rfl, settled.addEvent e, cells, count⟩
  share := by
    rintro a s tag body env ⟨rfl, settled, lasts⟩ based
    obtain ⟨settled', lasts'⟩ := settled.share tag body based
    exact ⟨rfl, settled', lasts.trans lasts'⟩

theorem forcesLasting {base : Store} (limit : Nat) {known : Set Name} {id : Name}
    (there : id ∈ known) :
    Coupled (.lasting base) known (forceAnew limit id) (forceAnew limit id) := by
  rintro a s ⟨rfl, settled, lasts⟩ grown
  obtain ⟨c, found⟩ := Option.isSome_iff_exists.mp (grown there)
  obtain rfl := Store.cellNamed found
  rcases run : buildPlainly limit c a with ⟨exit, after⟩
  by_cases ended : exit = .exhausted
  · exact .short (renewedShort found settled.stage (run.trans (by rw [ended])))
  · obtain ⟨cells, events, name, rfl, fresh, closed, inside, everywhere⟩ :=
      buildsEverywhere settled.closed (settled.closed _ c found).1 run ended
    have leaves : c.Leaves cells := ⟨limit, fun n enough s =>
      ⟨exit, events, name, everywhere n enough s, ended⟩⟩
    obtain ⟨settled', lasts'⟩ := settled.adding found fresh leaves closed
    rw [forceAnew, renewedQuietly found settled.stage run]
    cases exit with
    | done v =>
      exact .done ⟨rfl, settled', lasts.trans lasts'⟩ (Store.knownAdding ..) (inside v rfl)
    | raised fault => exact .raised ⟨rfl, settled', lasts.trans lasts'⟩ (Store.knownAdding ..)
    | exhausted => exact absurd rfl ended

theorem callsLasting (base : Store) (limit : Nat) :
    Callers (.lasting base) (callAnew limit) (callAnew limit) :=
  callForcingCoupled (K := .lasting base) (fun less _ _ _ _ there => forcesLasting less there) limit
    (Nat.le_refl limit)

theorem callLasts {w after : Store} (settled : w.Settled) {f v : Value} (function : Over w.known f)
    (value : Over w.known v) {limit : Nat} {exit : Exit Value}
    (run : callAnew limit f [v] [] w = (exit, after)) (ended : exit ≠ .exhausted) :
    after.Settled ∧ w.Lasts after ∧ ∀ r, exit = .done r → Over after.known r := by
  have meets := callsLasting w limit w.known f [v] [] function (overCons value nofun) nofun w w
    ⟨rfl, settled, .refl w⟩ subset_rfl
  rw [run] at meets
  cases meets with
  | short cut => exact absurd cut ended
  | done agree _ based =>
    refine ⟨agree.2.1, agree.2.2, ?_⟩
    rintro _ ⟨⟩
    exact based
  | raised agree => exact ⟨agree.2.1, agree.2.2, nofun⟩

end ParseKit.Script
