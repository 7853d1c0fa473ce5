import ParseKit.Proofs.History.Forcing

/-! Stores in which everything stays at home: what is in the cells of a closed store is over its
cells. Preparing a program leaves such a store. What a plain building makes is the same in any
two stores, of which only what is bound has to be there. -/
namespace ParseKit.Script
open Eff (Below)

instance : Cellular Cell where
  Over cells c := Over cells c.env ∧ Over cells c.built
  grow sub based := ⟨Cellular.grow sub based.1, Cellular.grow sub based.2⟩

def latest (cells : List Cell) (id : Name) : Option Cell := cells.findRev? fun c => c.name == id

theorem latestMem {cells : List Cell} {id : Name} {c : Cell} (found : latest cells id = some c) :
    c ∈ cells ∧ c.name = id := by
  unfold latest at found
  rw [List.findRev?_eq_find?_reverse] at found
  exact ⟨List.mem_reverse.mp (List.mem_of_find?_eq_some found),
    by simpa using List.find?_some found⟩

namespace Store

theorem cellNamed {w : Store} {id : Name} {c : Cell} (found : w.cell? id = some c) :
    c.name = id := (latestMem found).2

def adding (w : Store) (cells : List Cell) (events : List Event) (name : Name) : Store :=
  ⟨w.cells ++ cells.toArray, w.events ++ events.toArray, name⟩

section
variable (w : Store) (cells : List Cell) (events : List Event) (name id : Name)

theorem addingNone : w.adding [] [] name = w.naming name := by simp [adding, naming]

theorem addingCell (c : Cell) :
    (w.adding cells events name).addCell c = w.adding (cells ++ [c]) events name := by
  simp [adding, addCell]

theorem addingEvent (e : Event) :
    (w.adding cells events name).addEvent e = w.adding cells (events ++ [e]) name := by
  simp [adding, addEvent]

theorem cellAdding :
    (w.adding cells events name).cell? id = (latest cells id).or (w.cell? id) := by
  simp [adding, cell?, latest, List.findRev?_eq_find?_reverse, List.find?_append]

theorem knownAdding : w.known ⊆ (w.adding cells events name).known := by
  intro id found
  rw [memKnown] at found ⊢
  rw [cellAdding]
  cases latest cells id <;> simp [found]

end

def Closed (w : Store) : Prop := ∀ id c, w.cell? id = some c → Over w.known c

theorem Closed.addCell {w : Store} (closed : w.Closed) {c : Cell}
    (based : Over (w.addCell c).known c) : (w.addCell c).Closed := by
  intro id d found
  rw [cellAdded] at found
  split at found
  · exact Option.some.inj found ▸ based
  · exact Cellular.grow (knownAdded w c) (closed id d found)

structure Preparing (w : Store) : Prop where
  closed : w.Closed
  name : w.name.stage = .preparing
  cells : ∀ id ∈ w.known, id.stage = .preparing

namespace Preparing
variable {w : Store} (preparing : w.Preparing)
include preparing

theorem naming {name : Name} (stage : name.stage = .preparing) : (w.naming name).Preparing :=
  ⟨preparing.closed, stage, preparing.cells⟩

theorem addEvent (e : Event) : (w.addEvent e).Preparing :=
  ⟨preparing.closed, preparing.name, preparing.cells⟩

theorem addCell {c : Cell} (stage : c.name.stage = .preparing) (based : Over w.known c) :
    (w.addCell c).Preparing := by
  refine ⟨preparing.closed.addCell (Cellular.grow (knownAdded w c) based), preparing.name, ?_⟩
  intro id found
  rw [memKnown, cellAdded] at found
  split at found
  · rename_i same
    exact same ▸ stage
  · exact preparing.cells id found

end Preparing
end Store

namespace Name
variable (name : Name)

theorem stageNext : name.next.stage = name.stage := by cases name <;> rfl

theorem stageOfCell : name.ofCell.stage = name.stage := by cases name <;> rfl

theorem stageNextCell : name.nextCell.stage = name.stage := by cases name <;> rfl

end Name

theorem buildCoupled {K : Coupling} {known : Set Name} {e f : Env → Expr → Run Value}
    (evals : Evals K e f) (tag : Option Text) (body : Expr) {env : Env} (based : Over known env) :
    Coupled K known (build e tag body env) (build f tag body env) := by
  cases tag with
  | none => exact evals known env body based
  | some t =>
    exact (Coupled.event (.note (.str t))).bind fun more _ sub _ =>
      evals more env body (Cellular.grow sub based)

def Coupling.preparing : Coupling where
  side := .right
  ahead := 0
  level _ := rfl
  agree a s := a = s ∧ a.Preparing
  name agree := by rw [agree.1]
  next := by
    rintro a s ⟨rfl, here⟩
    exact ⟨rfl, here.naming (a.name.stageNext.trans here.name)⟩
  event := by
    rintro a s e ⟨rfl, here⟩
    exact ⟨rfl, here.addEvent e⟩
  share := by
    rintro a s tag body env ⟨rfl, here⟩ based
    have next := here.naming (a.name.stageNextCell.trans here.name)
    exact ⟨rfl, next.addCell (a.name.stageOfCell.trans here.name) ⟨based, by simp⟩⟩

namespace Coupled
variable {known : Set Name}

theorem building {x : Run Value} (inner : Coupled .preparing known x x) (id : Name) :
    Coupled .preparing known (Run.building id x) (Run.building id x) := by
  rintro a s ⟨rfl, here⟩ grown
  have run := inner (a.naming (.inner id a.name.stage 0 0)) _ ⟨rfl, here.naming here.name⟩ grown
  change Meets _ a.known (_, (x (a.naming (.inner id a.name.stage 0 0))).2.naming a.name)
    (_, (x (a.naming (.inner id a.name.stage 0 0))).2.naming a.name)
  generalize x (a.naming (.inner id a.name.stage 0 0)) = result at run
  obtain ⟨exit, after⟩ := result
  cases run with
  | short cut => exact .short cut
  | done agree grown based => exact .done ⟨rfl, agree.2.naming here.name⟩ grown based
  | raised agree grown => exact .raised ⟨rfl, agree.2.naming here.name⟩ grown

theorem fill (id : Name) {v : Value} (based : Over known v) :
    Coupled .preparing known (Run.fill id v) (Run.fill id v) := by
  rintro a s ⟨rfl, here⟩ grown
  have value := Cellular.grow grown based
  have read : Run.cell? id a = (.done (a.cell? id), a) := rfl
  unfold Run.fill
  rw [Eff.bindOfDone read]
  cases found : a.cell? id with
  | none => exact .done ⟨rfl, here⟩ subset_rfl value
  | some c =>
    have inside := here.closed id c found
    obtain ⟨name, tag, body, env, built⟩ := c
    cases built with
    | some first => exact .done ⟨rfl, here⟩ subset_rfl (inside.2 first rfl)
    | none =>
      obtain rfl : name = id := Store.cellNamed found
      have stage := here.cells name (by simp [found])
      have larger := Store.knownAdded a ⟨name, tag, body, env, some v⟩
      exact .done ⟨rfl, here.addCell stage ⟨inside.1, by simpa using value⟩⟩ larger
        (Cellular.grow larger value)

theorem force {known : Set Name} {e : Env → Expr → Run Value} (evals : Evals .preparing e e)
    {id : Name} (there : id ∈ known) :
    Coupled .preparing known (Script.force e id) (Script.force e id) := by
  rintro a s ⟨rfl, here⟩ grown
  obtain ⟨c, found⟩ := Option.isSome_iff_exists.mp (grown there)
  have inside := here.closed id c found
  have read : Run.cell? id a = (.done (some c), a) := by simp [Run.cell?, found]
  unfold Script.force
  rw [Eff.bindOfDone read]
  obtain ⟨name, tag, body, env, built⟩ := c
  cases built with
  | some first => exact .done ⟨rfl, here⟩ subset_rfl (inside.2 first rfl)
  | none =>
    exact ((buildCoupled evals tag body inside.1).building id).bind
      (fun _ _ _ based => fill id based) a a ⟨rfl, here⟩ subset_rfl

end Coupled

theorem callPreparing (limit : Nat) : Callers .preparing (call limit) (call limit) := by
  let forcing (limit : Nat) := force (evalWith (call limit))
  have forces : ∀ less < limit,
      Callers .preparing (callForcing forcing (less + Coupling.preparing.ahead))
        (callForcing forcing less) → ∀ known, ∀ id ∈ known,
          Coupled .preparing known (forcing (less + Coupling.preparing.ahead) id)
            (forcing less id) := by
    intro less _ calls known id there
    rw [callIsForcing, callIsForcing] at calls
    exact Coupled.force (fun known env e based => evalCoupled calls e known based) there
  have coupled := callForcingCoupled forces limit (Nat.le_refl limit)
  rwa [callIsForcing, callIsForcing] at coupled

namespace Program

theorem cellLinked (definitions : List Name) (env : Env) (w : Store) (id : Name) :
    (link definitions env w).cell? id = (w.cell? id).map fun c =>
      if definitions.contains c.name then { c with env := env } else c := by
  have kept : ((fun c : Cell => c.name == id) ∘ fun c : Cell =>
      if definitions.contains c.name then { c with env := env } else c) =
        fun c => c.name == id := by
    funext c
    dsimp only [Function.comp]
    split <;> rfl
  simp only [link, Store.cell?, List.findRev?_eq_find?_reverse,
    ← List.map_reverse, List.find?_map, kept]

theorem linkClosed {w : Store} (closed : w.Closed) (definitions : List Name) {env : Env}
    (based : Over w.known env) : (link definitions env w).Closed ∧
      (link definitions env w).known = w.known := by
  have same : (link definitions env w).known = w.known := by
    ext id
    simp [cellLinked]
  refine ⟨?_, same⟩
  intro id d found
  rw [cellLinked] at found
  obtain ⟨c, there, rfl⟩ := Option.map_eq_some_iff.mp found
  have inside := closed id c there
  rw [same]
  split
  · exact ⟨based, inside.2⟩
  · exact inside

theorem linkPreparing {w : Store} (here : w.Preparing) (definitions : List Name) {env : Env}
    (based : Over w.known env) : (link definitions env w).Preparing ∧
      (link definitions env w).known = w.known := by
  obtain ⟨closed, same⟩ := linkClosed here.closed definitions based
  exact ⟨⟨closed, here.name, same ▸ here.cells⟩, same⟩

theorem shareAllCoupled {K : Coupling} {known : Set Name} (definitions : List (String × Expr)) :
    Coupled K known (shareAll definitions) (shareAll definitions) := by
  induction definitions generalizing known with
  | nil => exact .done (by simp)
  | cons definition more ih =>
    exact .share none definition.2 (by simp) fun _ id _ there =>
      (Coupled.make (by simpa using there)).bind fun _ p _ based =>
        ih.bind fun _ env sub others =>
          .done (Env.setOver others definition.1 (Cellular.grow sub based))

theorem linkCoupled {known : Set Name} (definitions : List Name) {env : Env}
    (based : Over known env) : Coupled .preparing known
      (Eff.modify (link definitions env)) (Eff.modify (link definitions env)) := by
  rintro a s ⟨rfl, here⟩ grown
  obtain ⟨linked, same⟩ := linkPreparing here definitions (Cellular.grow grown based)
  exact .done ⟨rfl, linked⟩ same.ge trivial

theorem bindEachCoupled (limit : Nat) {known : Set Name} (definitions : List Name) {env : Env}
    (based : Over known env) (bindings : List (String × Expr)) : Coupled .preparing known
      (bindEachBy (call limit) definitions env bindings)
      (bindEachBy (call limit) definitions env bindings) := by
  induction bindings generalizing env known with
  | nil => exact (linkCoupled definitions based).bind fun _ _ sub _ => .done (Cellular.grow sub based)
  | cons binding more ih =>
    exact (linkCoupled definitions based).bind fun _ _ sub _ =>
      (evalCoupled (callPreparing limit) binding.2 _ (Cellular.grow sub based)).bind
        fun _ v later value =>
          ih (Env.setOver (Cellular.grow (sub.trans later) based) binding.1 value)

theorem prepareOver {p : Program} {limit : Nat} {env : Env} {base : Store}
    (prepared : p.prepare limit Store.empty = (.done env, base)) :
    base.Preparing ∧ Over base.known env := by
  have start : Store.empty.Preparing :=
    ⟨fun id c found => (by cases found), rfl, fun id found => (by cases found)⟩
  have run : Coupled .preparing ∅ (p.prepare limit) (p.prepare limit) :=
    (shareAllCoupled p.definitions).bind fun _ shared _ based =>
      bindEachCoupled limit (cellsOf shared) based p.bindings
  have meets := run Store.empty Store.empty ⟨rfl, start⟩ (Set.empty_subset _)
  rw [prepared] at meets
  cases meets with
  | short cut => cases cut
  | done agree _ based => exact ⟨agree.2, based⟩

end Program

def Fresh (cell : Name) (cells : List Cell) : Prop :=
  ∀ c ∈ cells, c.built = none ∧ ∃ shared, c.name = .inner cell .stepping 0 shared

theorem Fresh.append {cell : Name} {cells : List Cell} {c : Cell} {shared : Nat}
    (fresh : Fresh cell cells) (empty : c.built = none)
    (named : c.name = .inner cell .stepping 0 shared) : Fresh cell (cells ++ [c]) := by
  intro d mem
  rcases List.mem_append.mp mem with old | new
  · exact fresh d old
  · rw [List.mem_singleton.mp new]
    exact ⟨empty, shared, named⟩

def Coupling.building (side : Side) (cell : Name) (u w : Store) : Coupling where
  side := side
  ahead := 0
  level _ := rfl
  agree a s := ∃ cells events name, a = u.adding cells events name ∧
    s = w.adding cells events name ∧ Fresh cell cells ∧
    (∃ serial shared, name = .inner cell .stepping serial shared) ∧ a.Closed
  name := by
    rintro _ _ ⟨cells, events, name, rfl, rfl, _⟩
    rfl
  next := by
    rintro _ _ ⟨cells, events, name, rfl, rfl, fresh, ⟨serial, shared, rfl⟩, closed⟩
    exact ⟨cells, events, _, rfl, rfl, fresh, ⟨serial + 1, shared, rfl⟩, closed⟩
  event := by
    rintro _ _ e ⟨cells, events, name, rfl, rfl, fresh, named, closed⟩
    exact ⟨cells, events ++ [e], name, Store.addingEvent .., Store.addingEvent .., fresh, named,
      closed⟩
  share := by
    rintro _ _ tag body env ⟨cells, events, name, rfl, rfl, fresh, ⟨serial, shared, rfl⟩, closed⟩
      based
    refine ⟨cells ++ [⟨.inner cell .stepping 0 shared, tag, body, env, none⟩], events, _,
      Store.addingCell .., Store.addingCell .., fresh.append rfl rfl, ⟨serial, shared + 1, rfl⟩, ?_⟩
    exact Store.Closed.addCell closed (Cellular.grow (Store.knownAdded (u.adding cells events
      (.inner cell .stepping serial (shared + 1))) _) ⟨based, by simp⟩)

def buildPlainly (limit : Nat) (c : Cell) : Run Value := fun w =>
  build (evalWith (callFunction limit)) c.tag c.body c.env (w.naming (.inner c.name .stepping 0 0))

theorem buildPlainlyBelow {m n : Nat} (le : m ≤ n) (c : Cell) :
    Below (buildPlainly m c) (buildPlainly n c) := fun w =>
  buildBelow (fun env e => evalBelow (callFunctionBelow le) env e) c.tag c.body c.env
    (w.naming (.inner c.name .stepping 0 0))

inductive Alike (c : Cell) (a s : Store) : Exit Value × Store → Exit Value × Store → Prop where
  | short (a' s' : Store) : Alike c a s (.exhausted, a') (.exhausted, s')
  | done {v : Value} {cells : List Cell} {events : List Event} {name : Name}
      (fresh : Fresh c.name cells) (closed : (a.adding cells events name).Closed)
      (based : Over (a.adding cells events name).known v) :
      Alike c a s (.done v, a.adding cells events name) (.done v, s.adding cells events name)
  | raised {fault : Fault} {cells : List Cell} {events : List Event} {name : Name}
      (fresh : Fresh c.name cells) (closed : (a.adding cells events name).Closed) :
      Alike c a s (.raised fault, a.adding cells events name)
        (.raised fault, s.adding cells events name)

theorem buildsAlike {a : Store} (closed : a.Closed) (s : Store) {c : Cell}
    (based : Over a.known c.env) (limit : Nat) :
    Alike c a s (buildPlainly limit c a) (buildPlainly limit c s) := by
  have meets (side : Side) : Meets (.building side c.name a s) a.known
      (buildPlainly limit c a) (buildPlainly limit c s) := by
    have calls := callFunctionCoupled (K := .building side c.name a s) limit
    refine buildCoupled (fun known env e bound => evalCoupled calls e known bound) c.tag c.body
      based _ _ ⟨[], [], .inner c.name .stepping 0 0, (Store.addingNone ..).symm,
        (Store.addingNone ..).symm, ?_, ⟨0, 0, rfl⟩, closed⟩ subset_rfl
    intro d mem
    cases mem
  have first := meets .left
  have second := meets .right
  generalize buildPlainly limit c a = x at first second ⊢
  generalize buildPlainly limit c s = y at first second ⊢
  obtain ⟨exit, a'⟩ := x
  obtain ⟨exit', s'⟩ := y
  cases first with
  | done agree grown inside =>
    obtain ⟨cells, events, name, rfl, rfl, fresh, _, closed⟩ := agree
    exact .done fresh closed inside
  | raised agree grown =>
    obtain ⟨cells, events, name, rfl, rfl, fresh, _, closed⟩ := agree
    exact .raised fresh closed
  | short cut =>
    obtain rfl : exit = .exhausted := cut
    cases second with
    | short cut =>
      obtain rfl : exit' = .exhausted := cut
      exact .short a' s'

end ParseKit.Script
