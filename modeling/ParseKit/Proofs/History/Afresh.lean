import ParseKit.Proofs.History.Session

/-! Calls that build the parsers of cells anew each time, without a trace of the building. Beside a
run that fills cells such a run needs no larger limit and comes to the same, and what it tells is what
the other one tells without the events of building. -/
namespace ParseKit.Script
open Eff (Below)

def renew (eval : Env → Expr → Run Value) (id : Name) : Run Value := do
  match ← Run.cell? id with
  | none => Eff.exhausted
  | some ⟨_, tag, body, env, _⟩ => Run.building id (build eval tag body env)

def forceAnew (limit : Nat) (id : Name) : Run Value :=
  Run.hush true (renew (evalWith (callFunction limit)) id)

def callAnew : Nat → Caller := callForcing forceAnew

theorem renewBelow {e f : Env → Expr → Run Value} (evals : EvalBelow e f) (id : Name) :
    Below (renew e id) (renew f id) :=
  (Below.refl _).bind fun found => by
    cases found with
    | none => exact .refl _
    | some c => exact buildingBelow id (buildBelow evals c.tag c.body c.env)

section
variable {m n : Nat} (le : m ≤ n)
include le

theorem forceAnewBelow (id : Name) : Below (forceAnew m id) (forceAnew n id) :=
  hushBelow true (renewBelow (fun env e => evalBelow (callFunctionBelow le) env e) id)

theorem callAnewBelow : CallerBelow (callAnew m) (callAnew n) := callForcingBelow forceAnewBelow le

end

/- A store in which no cell is ever filled beside one in which cells have been filled. -/
structure Anew (limit : Nat) (a s : Store) : Prop where
  later : Kept a.cell? s.cell?
  closed : a.Closed
  empty : ∀ id c, a.cell? id = some c → c.built = none
  built : ∀ id c v, s.cell? id = some c → c.built = some v → Built limit s c v

namespace Anew
variable {a s : Store} {limit : Nat} (anew : Anew limit a s)
include anew

theorem more {enough : Nat} (le : limit ≤ enough) : Anew enough a s :=
  ⟨anew.later, anew.closed, anew.empty, fun id c v found filled => by
    obtain ⟨u, cells, events, name, run, there⟩ := anew.built id c v found filled
    exact ⟨u, cells, events, name, (buildPlainlyBelow le c).ends run nofun, there⟩⟩

theorem naming (name : Name) : Anew limit (a.naming name) (s.naming name) :=
  ⟨anew.later, anew.closed, anew.empty, anew.built⟩

theorem addEvent (e : Event) : Anew limit (a.addEvent e) (s.addEvent e) :=
  ⟨anew.later, anew.closed, anew.empty, anew.built⟩

theorem share {shared : Nat} {tag : Option Text} {body : Expr} {env : Env}
    (based : Over a.known env) :
    Anew limit (a.addCell ⟨.outer .stepping 0 shared, tag, body, env, none⟩)
      (s.addCell ⟨.outer .stepping 0 shared, tag, body, env, none⟩) where
  later := anew.later.addBoth _
  closed := anew.closed.addCell (Cellular.grow (Store.knownAdded a _) ⟨based, by simp⟩)
  empty id c found := by
    rw [Store.cellAdded] at found
    split at found
    · rw [← Option.some.inj found]
    · exact anew.empty id c found
  built id c v found filled := by
    rw [Store.cellAdded] at found
    split at found
    · obtain rfl := Option.some.inj found
      cases filled
    · refine (anew.built id c v found filled).grow ?_
      intro serial d there
      rw [Store.cellAdded, if_neg (by simp)]
      exact ⟨d, there, .same d⟩

section
variable {id : Name} {cells : List Cell} {events more : List Event} {name next : Name}
  (fresh : Fresh id cells) (closed : (a.adding cells events name).Closed)
include fresh closed

omit closed in
theorem emptyAdding : ∀ other c, (a.adding cells events name).cell? other = some c →
    c.built = none := by
  intro other c found
  rw [Store.cellAdding] at found
  cases here : latest cells other with
  | some d =>
    rw [here] at found
    obtain rfl := Option.some.inj found
    exact (fresh d (latestMem here).1).1
  | none =>
    rw [here] at found
    exact anew.empty other c found

theorem addingBoth {c : Cell} (found : s.cell? id = some c) (unfilled : c.built = none) :
    Anew limit (a.adding cells events name) (s.adding cells more next) where
  later := anew.later.addingBoth
  closed := closed
  empty := anew.emptyAdding fresh
  built other d v there filled := by
    rw [Store.cellAdding] at there
    cases here : latest cells other with
    | some e =>
      rw [here] at there
      obtain rfl := Option.some.inj there
      have none := (fresh e (latestMem here).1).1
      rw [filled] at none
      cases none
    | none =>
      rw [here] at there
      refine (anew.built other d v there filled).grow ?_
      intro serial e last
      have different : d.name ≠ id := by
        rw [Store.cellNamed there]
        rintro rfl
        obtain rfl := Option.some.inj (found.symm.trans there)
        rw [filled] at unfilled
        cases unfilled
      rw [Store.cellAdding, fresh.other (fun _ same => different (Name.inner.inj same).1)]
      exact ⟨e, last, .same e⟩

theorem addingLeft (kept : Kept (latest cells) s.cell?) :
    Anew limit (a.adding cells events name) s :=
  ⟨anew.later.addingLeft kept, closed, anew.emptyAdding fresh, anew.built⟩

end

theorem fillRight {id : Name} {tag : Option Text} {body : Expr} {env : Env} {v : Value}
    (there : s.cell? id = some ⟨id, tag, body, env, none⟩)
    (built : Built limit s ⟨id, tag, body, env, some v⟩ v) :
    Anew limit a (s.addCell ⟨id, tag, body, env, some v⟩) := by
  refine ⟨anew.later.trans (.filling there v), anew.closed, anew.empty,
    fun other d w last filled => ?_⟩
  rw [Store.cellAdded] at last
  split at last
  · obtain rfl := Option.some.inj last
    obtain rfl := Option.some.inj filled
    exact built.grow fun _ => Kept.filling there v _
  · exact (anew.built other d w last filled).grow fun _ => Kept.filling there v _

end Anew

section
variable {e : Env → Expr → Run Value} {a : Store} {id : Name} {c : Cell}
  (found : a.cell? id = some c) (stage : a.name.stage = .stepping)
include found stage

theorem renewed {exit : Exit Value} {after : Store}
    (run : build e c.tag c.body c.env (a.naming (.inner c.name .stepping 0 0)) = (exit, after)) :
    renew e id a = (exit, after.naming a.name) := by
  obtain rfl := Store.cellNamed found
  have read : Run.cell? c.name a = (.done (some c), a) := by simp [Run.cell?, found]
  unfold renew
  rw [Eff.bindOfDone read]
  simp only [Run.building, stage, run]

theorem renewedQuietly {exit : Exit Value} {cells : List Cell} {events : List Event} {name : Name}
    (run : build e c.tag c.body c.env (a.naming (.inner c.name .stepping 0 0)) =
      (exit, a.adding cells events name)) :
    Run.hush true (renew e id) a = (exit, a.adding cells [] a.name) := by
  simp only [Run.hush, renewed found stage run]
  simp [Store.adding, Store.naming]

theorem renewedShort {after : Store}
    (run : build e c.tag c.body c.env (a.naming (.inner c.name .stepping 0 0)) =
      (.exhausted, after)) :
    (Run.hush true (renew e id) a).1 = .exhausted := by
  simp only [Run.hush, renewed found stage run]

end

def Quieter (quiet : Bool) (a s : Array Event) : Prop :=
  a.toList.Sublist s.toList ∧ (quiet = true → a = s)

namespace Quieter
variable {quiet : Bool} {a s : Array Event} (quieter : Quieter quiet a s)
include quieter

theorem push (e : Event) : Quieter quiet (a.push e) (s.push e) := by
  refine ⟨?_, fun still => by rw [quieter.2 still]⟩
  simpa only [Array.toList_push] using quieter.1.append_right [e]

theorem hushRight (events : List Event) :
    Quieter quiet a (s ++ (if quiet then [] else events).toArray) := by
  refine ⟨?_, fun still => by simp [still, quieter.2 still]⟩
  rw [Array.toList_append]
  exact quieter.1.trans (List.sublist_append_left ..)

end Quieter

def Coupling.anew (limit : Nat) (quiet : Bool) : Coupling where
  side := .left
  ahead := 0
  level _ := rfl
  agree a s := Anew limit a s ∧ Quieter quiet a.events s.events ∧
    ∃ serial shared, a.name = .outer .stepping serial shared ∧
      s.name = .outer .stepping serial shared
  name := by
    rintro a s ⟨_, _, serial, shared, left, right⟩
    rw [left, right]
  next := by
    rintro a s ⟨anew, quieter, serial, shared, left, right⟩
    rw [left, right]
    exact ⟨anew.naming _, quieter, serial + 1, shared, rfl, rfl⟩
  event := by
    rintro a s e ⟨anew, quieter, named⟩
    exact ⟨anew.addEvent e, quieter.push e, named⟩
  share := by
    rintro a s tag body env ⟨anew, quieter, serial, shared, left, right⟩ based
    rw [left, right]
    exact ⟨(anew.naming _).share based, quieter, serial, shared + 1, rfl, rfl⟩

section
variable {limit : Nat} {quiet : Bool} {less : Nat} {a s : Store} {id : Name}
  {tag : Option Text} {body : Expr} {env : Env}
  (agree : (Coupling.anew limit quiet).agree a s)
  (found : a.cell? id = some ⟨id, tag, body, env, none⟩) (within : less ≤ limit)
include agree found within

theorem forceAgain {v : Value} (there : s.cell? id = some ⟨id, tag, body, env, some v⟩) :
    Meets (.anew limit quiet) a.known (forceAnew less id a) (forcePlainly quiet less id s) := by
  obtain ⟨anew, quieter, serial, shared, left, right⟩ := agree
  have stage : a.name.stage = .stepping := by rw [left]; rfl
  obtain ⟨u, cells, events, name, run, fresh, kept⟩ := anew.built id _ v there rfl
  have alike := buildsAlike anew.closed u (anew.closed id _ found).1 limit
  rw [show buildPlainly limit ⟨id, tag, body, env, none⟩ u = _ from run] at alike
  obtain ⟨same, closed, based⟩ := alike.ofDone
  rw [forceFilled quiet less there rfl]
  rcases buildPlainlyBelow within ⟨id, tag, body, env, none⟩ a with equal | short
  · rw [forceAnew, renewedQuietly found stage (equal.trans same)]
    exact .done ⟨anew.addingLeft fresh closed kept, by simpa [Store.adding] using quieter, serial,
      shared, left, right⟩ (Store.knownAdding ..) based
  · exact .short (renewedShort found stage (Prod.ext short rfl))

theorem forceFirst (there : s.cell? id = some ⟨id, tag, body, env, none⟩) :
    Meets (.anew limit quiet) a.known (forceAnew less id a) (forcePlainly quiet less id s) := by
  obtain ⟨anew, quieter, serial, shared, left, right⟩ := agree
  have stage : a.name.stage = .stepping := by rw [left]; rfl
  have stage' : s.name.stage = .stepping := by rw [right]; rfl
  have alike := buildsAlike anew.closed s (anew.closed id _ found).1 less
  generalize first : buildPlainly less ⟨id, tag, body, env, none⟩ a = x at alike
  generalize second : buildPlainly less ⟨id, tag, body, env, none⟩ s = y at alike
  cases alike with
  | short a' s' => exact .short (renewedShort found stage first)
  | @raised fault cells events name fresh closed =>
    rw [forceAnew, renewedQuietly found stage first, forceRaised quiet _ there stage' second]
    exact .raised ⟨anew.addingBoth fresh closed there rfl, by
      simpa [Store.adding] using quieter.hushRight events, serial, shared, left, right⟩
      (Store.knownAdding ..)
  | @done v cells events name fresh closed based =>
    rw [forceAnew, renewedQuietly found stage first, forceDone quiet _ there stage' second fresh]
    have made : Anew limit (a.adding cells [] a.name)
        (s.adding cells (if quiet then [] else events) s.name) :=
      anew.addingBoth fresh closed there rfl
    have here := (fresh.itself s (if quiet then [] else events) s.name).trans there
    have built : Built limit (s.adding cells (if quiet then [] else events) s.name)
        ⟨id, tag, body, env, some v⟩ v := by
      refine ⟨s, cells, events, name, (buildPlainlyBelow within _).ends second (by simp), fresh,
        fun other c new => ⟨c, ?_, .same c⟩⟩
      rw [Store.cellAdding, new, Option.some_or]
    exact .done ⟨made.fillRight here built, by
      simpa [Store.adding, Store.addCell] using quieter.hushRight events, serial, shared, left,
      right⟩ (Store.knownAdding ..) based

end

theorem forcesAnew {limit less : Nat} {quiet : Bool} (within : less ≤ limit) {known : Set Name}
    {id : Name} (there : id ∈ known) :
    Coupled (.anew limit quiet) known (forceAnew less id) (forcePlainly quiet less id) := by
  intro a s agree grown
  obtain ⟨c, found⟩ := Option.isSome_iff_exists.mp (grown there)
  obtain ⟨d, last, later⟩ := agree.1.later id c found
  have empty := agree.1.empty id c found
  obtain rfl := Store.cellNamed found
  cases later with
  | filled name tag body env v => exact forceAgain agree found within last
  | same =>
    obtain ⟨name, tag, body, env, built⟩ := c
    obtain rfl : built = none := empty
    exact forceFirst agree found within last

theorem callsAnew (limit : Nat) (quiet : Bool) :
    Callers (.anew limit quiet) (callAnew limit) (callPlainly quiet limit) :=
  callForcingCoupled (K := .anew limit quiet)
    (fun _ less _ _ _ there => forcesAnew less.le there) limit (Nat.le_refl limit)

section
variable {limit : Nat} {a s : Store} {env : Env}

theorem Anew.unused (closed : a.Closed) (empty : ∀ id c, a.cell? id = some c → c.built = none) :
    Anew limit a a :=
  ⟨.refl _, closed, empty, fun id c v found filled => by
    rw [empty id c found] at filled
    cases filled⟩

theorem answeredAnew (quiet : Bool) (anew : Anew limit a s) (bound : Over a.known env) (step : Step)
    (text : Text) :
    let p := step.answered (callAnew limit) env text a
    let q := step.answered (callPlainly quiet limit) env text s
    p.1.exit = .exhausted ∨
      Comparable quiet true q.1 p.1 ∧ Anew limit p.2 q.2 ∧ Over p.2.known env := by
  have meets := stepCoupled (callsAnew limit quiet) bound step text
    ⟨a.atStep.cells, #[], a.atStep.name⟩ ⟨s.atStep.cells, #[], s.atStep.name⟩
    ⟨⟨anew.later, anew.closed, anew.empty, anew.built⟩, ⟨List.Sublist.refl #[].toList, fun _ => rfl⟩,
      0, 0, rfl, rfl⟩ subset_rfl
  unfold Step.answered Run.answerFrom
  generalize step.run (callAnew limit) env text _ = x at meets ⊢
  generalize step.run (callPlainly quiet limit) env text _ = y at meets ⊢
  cases meets with
  | short cut => exact .inl cut
  | done agree grown _ =>
    refine .inr ⟨⟨rfl, fun _ => agree.2.1.1, fun still _ => ?_⟩, agree.1, Cellular.grow grown bound⟩
    exact congrArg Array.toList (agree.2.1.2 still).symm
  | raised agree grown =>
    refine .inr ⟨⟨rfl, fun _ => agree.2.1.1, fun still _ => ?_⟩, agree.1, Cellular.grow grown bound⟩
    exact congrArg Array.toList (agree.2.1.2 still).symm

theorem sessionAnew (quiet : Bool) (anew : Anew limit a s) (bound : Over a.known env) (left : Text)
    (steps : List Step)
    (ends : ∀ answer ∈ sessionFrom (callAnew limit) env a left steps, answer.exit ≠ .exhausted) :
    List.Forall₂ (Comparable quiet true) (sessionFrom (callPlainly quiet limit) env s left steps)
      (sessionFrom (callAnew limit) env a left steps) := by
  induction steps generalizing a s left with
  | nil => exact .nil
  | cons step steps ih =>
    rw [sessionCons] at ends ⊢
    obtain ⟨here, others⟩ := List.forall_mem_cons.mp ends
    rcases answeredAnew quiet anew bound step (step.input left) with short | ⟨same, after, based⟩
    · exact absurd short here
    · rw [sessionCons]
      refine .cons same ?_
      rw [same.exit]
      exact ih after based _ others

theorem sessionsAnew (closed : a.Closed) (empty : ∀ id c, a.cell? id = some c → c.built = none)
    (bound : Over a.known env) (left : Text) (steps : List Step)
    (ends : ∀ answer ∈ sessionFrom (callAnew limit) env a left steps, answer.exit ≠ .exhausted) :
    sessionFrom (callPlainly true limit) env a left steps =
        sessionFrom (callAnew limit) env a left steps ∧
      List.Forall₂ (Comparable false true) (sessionFrom (call limit) env a left steps)
        (sessionFrom (callAnew limit) env a left steps) := by
  have anew : Anew limit a a := .unused closed empty
  have quiet := sessionAnew true anew bound left steps ends
  have heard := sessionAnew false anew bound left steps ends
  refine ⟨?_, ?_⟩
  · simpa using answersOn (f := id) quiet
  · have exits : exits (sessionFrom (callPlainly false limit) env a left steps) = _ :=
      exitsOn (f := id) heard
    rwa [sessionPlain a left steps (endedIff.mp (exits ▸ endedIff.mpr ends))]

end

end ParseKit.Script
