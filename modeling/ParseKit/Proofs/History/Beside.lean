import ParseKit.Proofs.History.Stores

/-! Runs beside each other in stores of which one has been used before. What is not built yet on the
left may be built on the right. It is then what a plain building of it gives, so that building it on
the left gives the same, and adds cells that are on the right as well. -/
namespace ParseKit.Script
open Eff (Below)

theorem Name.innerOther (cell : Name) (stage : Stage) (serial shared : Nat) :
    Name.inner cell stage serial shared ≠ cell := by
  intro same
  have sizes := congrArg sizeOf same
  simp only [Name.inner.sizeOf_spec] at sizes
  omega

theorem Fresh.other {cell : Name} {cells : List Cell} (fresh : Fresh cell cells) {id : Name}
    (other : ∀ shared, id ≠ .inner cell .stepping 0 shared) : latest cells id = none := by
  cases found : latest cells id with
  | none => rfl
  | some c =>
    obtain ⟨mem, named⟩ := latestMem found
    obtain ⟨_, shared, same⟩ := fresh c mem
    exact absurd (named.symm.trans same) (other shared)

theorem Fresh.itself {cell : Name} {cells : List Cell} (fresh : Fresh cell cells) (w : Store)
    (events : List Event) (name : Name) :
    (w.adding cells events name).cell? cell = w.cell? cell := by
  rw [Store.cellAdding, fresh.other fun shared same => Name.innerOther cell _ 0 shared same.symm,
    Option.none_or]

inductive Cell.Later : Cell → Cell → Prop where
  | same (c : Cell) : Later c c
  | filled (name : Name) (tag : Option Text) (body : Expr) (env : Env) (v : Value) :
      Later ⟨name, tag, body, env, none⟩ ⟨name, tag, body, env, some v⟩

theorem Cell.Later.trans {c d e : Cell} (first : c.Later d) (second : d.Later e) : c.Later e := by
  cases first with
  | same => exact second
  | filled name tag body env v =>
    cases second with
    | same => exact .filled name tag body env v

def Kept (f g : Name → Option Cell) : Prop :=
  ∀ id c, f id = some c → ∃ d, g id = some d ∧ c.Later d

namespace Kept
variable {a s : Store}

theorem refl (f : Name → Option Cell) : Kept f f := fun _ c found => ⟨c, found, .same c⟩

theorem trans {f g h : Name → Option Cell} (first : Kept f g) (second : Kept g h) : Kept f h := by
  intro id c found
  obtain ⟨d, there, later⟩ := first id c found
  obtain ⟨e, last, further⟩ := second id d there
  exact ⟨e, last, later.trans further⟩

theorem addBoth (kept : Kept a.cell? s.cell?) (c : Cell) :
    Kept (a.addCell c).cell? (s.addCell c).cell? := by
  intro id d found
  rw [Store.cellAdded] at found ⊢
  by_cases same : c.name = id
  · rw [if_pos same] at found ⊢
    exact ⟨d, found, .same d⟩
  · rw [if_neg same] at found ⊢
    exact kept id d found

theorem addLeft (kept : Kept a.cell? s.cell?) {c : Cell} (there : s.cell? c.name = some c) :
    Kept (a.addCell c).cell? s.cell? := by
  intro id d found
  rw [Store.cellAdded] at found
  split at found
  · rename_i same
    exact ⟨c, same ▸ there, Option.some.inj found ▸ .same c⟩
  · exact kept id d found

theorem filling {id : Name} {tag : Option Text} {body : Expr} {env : Env}
    (there : s.cell? id = some ⟨id, tag, body, env, none⟩) (v : Value) :
    Kept s.cell? (s.addCell ⟨id, tag, body, env, some v⟩).cell? := by
  intro name e here
  rw [Store.cellAdded]
  split
  · rename_i same
    obtain rfl : id = name := same
    obtain rfl := Option.some.inj (there.symm.trans here)
    exact ⟨_, rfl, .filled id tag body env v⟩
  · exact ⟨e, here, .same e⟩

variable {cells : List Cell} {events more : List Event} {name next : Name}

theorem addingBoth (kept : Kept a.cell? s.cell?) :
    Kept (a.adding cells events name).cell? (s.adding cells more next).cell? := by
  intro id d found
  rw [Store.cellAdding] at found ⊢
  cases here : latest cells id with
  | some c =>
    rw [here] at found
    exact ⟨d, found, .same d⟩
  | none =>
    rw [here] at found
    exact kept id d found

theorem addingLeft (kept : Kept a.cell? s.cell?) (new : Kept (latest cells) s.cell?) :
    Kept (a.adding cells events name).cell? s.cell? := by
  intro id d found
  rw [Store.cellAdding] at found
  cases here : latest cells id with
  | some c =>
    rw [here] at found
    exact new id d (here.trans found)
  | none =>
    rw [here] at found
    exact kept id d found

end Kept

/- A cell holds what a plain building of it has given in some store, and the cells that this
has made are there. -/
def Built (limit : Nat) (s : Store) (c : Cell) (v : Value) : Prop :=
  ∃ u cells events name, buildPlainly limit c u = (.done v, u.adding cells events name) ∧
    Fresh c.name cells ∧ Kept (latest cells) s.cell?

theorem Built.grow {limit : Nat} {s s' : Store} {c : Cell} {v : Value} (built : Built limit s c v)
    (kept : ∀ shared d, s.cell? (.inner c.name .stepping 0 shared) = some d →
      ∃ e, s'.cell? (.inner c.name .stepping 0 shared) = some e ∧ d.Later e) :
    Built limit s' c v := by
  obtain ⟨u, cells, events, name, run, fresh, there⟩ := built
  refine ⟨u, cells, events, name, run, fresh, fun id d found => ?_⟩
  obtain ⟨e, here, later⟩ := there id d found
  obtain ⟨mem, rfl⟩ := latestMem found
  obtain ⟨_, shared, named⟩ := fresh d mem
  rw [named] at here ⊢
  obtain ⟨e', last, further⟩ := kept shared e here
  exact ⟨e', last, later.trans further⟩

/- A store beside one that has been used before. Both come from a base. -/
structure Beside (base : Store) (limit : Nat) (a s : Store) : Prop where
  later : Kept a.cell? s.cell?
  closed : a.Closed
  origin : Kept base.cell? a.cell?
  built : ∀ id c v, s.cell? id = some c → c.built = some v →
    base.cell? id = some c ∨ Built limit s c v

namespace Beside
variable {base a s : Store} {limit : Nat} (beside : Beside base limit a s)
  (preparing : base.Preparing)
include beside

theorem naming (name : Name) : Beside base limit (a.naming name) (s.naming name) :=
  ⟨beside.later, beside.closed, beside.origin, beside.built⟩

theorem addEvent (e : Event) : Beside base limit (a.addEvent e) (s.addEvent e) :=
  ⟨beside.later, beside.closed, beside.origin, beside.built⟩

include preparing in
theorem share {shared : Nat} {tag : Option Text} {body : Expr} {env : Env}
    (based : Over a.known env) :
    Beside base limit (a.addCell ⟨.outer .stepping 0 shared, tag, body, env, none⟩)
      (s.addCell ⟨.outer .stepping 0 shared, tag, body, env, none⟩) where
  later := beside.later.addBoth _
  closed := beside.closed.addCell
    (Cellular.grow (Store.knownAdded a _) ⟨based, by simp⟩)
  origin id c found := by
    have stage := preparing.cells id (by simp [found])
    rw [Store.cellAdded, if_neg]
    · exact beside.origin id c found
    · rintro rfl
      cases stage
  built id c v found filled := by
    rw [Store.cellAdded] at found
    split at found
    · obtain rfl := Option.some.inj found
      cases filled
    · refine (beside.built id c v found filled).imp_right fun built => built.grow ?_
      intro serial d there
      rw [Store.cellAdded, if_neg (by simp)]
      exact ⟨d, there, .same d⟩

section
variable {id : Name} {cells : List Cell} {events more : List Event} {name next : Name}
  (fresh : Fresh id cells) (closed : (a.adding cells events name).Closed)
include fresh closed

include preparing in
omit closed in
theorem originAdding : Kept base.cell? (a.adding cells events name).cell? := by
  intro other c found
  have stage := preparing.cells other (by simp [found])
  rw [Store.cellAdding, fresh.other]
  · exact beside.origin other c found
  · rintro serial rfl
    cases stage

include preparing in
theorem addingBoth {c : Cell} (found : s.cell? id = some c) (unfilled : c.built = none) :
    Beside base limit (a.adding cells events name) (s.adding cells more next) where
  later := beside.later.addingBoth
  closed := closed
  origin := beside.originAdding preparing fresh
  built other d v there filled := by
    rw [Store.cellAdding] at there
    cases here : latest cells other with
    | some e =>
      rw [here] at there
      obtain rfl := Option.some.inj there
      have none := (fresh e (latestMem here).1).1
      rw [filled] at none
      cases none
    | none =>
      rw [here] at there
      refine (beside.built other d v there filled).imp_right fun built => built.grow ?_
      intro serial e last
      have different : d.name ≠ id := by
        rw [Store.cellNamed there]
        rintro rfl
        obtain rfl := Option.some.inj (found.symm.trans there)
        rw [filled] at unfilled
        cases unfilled
      rw [Store.cellAdding, fresh.other (fun _ same => different (Name.inner.inj same).1)]
      exact ⟨e, last, .same e⟩

include preparing in
theorem addingLeft (kept : Kept (latest cells) s.cell?) :
    Beside base limit (a.adding cells events name) s where
  later := beside.later.addingLeft kept
  closed := closed
  origin := beside.originAdding preparing fresh
  built := beside.built

end

section
variable {id : Name} {tag : Option Text} {body : Expr} {env : Env} {v : Value}
  (found : a.cell? id = some ⟨id, tag, body, env, none⟩) (based : Over a.known v)
include found based

omit based in
theorem originFill : Kept base.cell? (a.addCell ⟨id, tag, body, env, some v⟩).cell? :=
  beside.origin.trans (.filling found v)

theorem closedFill : (a.addCell ⟨id, tag, body, env, some v⟩).Closed := by
  have inside := beside.closed id _ found
  exact beside.closed.addCell (Cellular.grow (Store.knownAdded a _)
    ⟨inside.1, by simpa using based⟩)

omit found based in
theorem fillRight (there : s.cell? id = some ⟨id, tag, body, env, none⟩)
    (built : Built limit s ⟨id, tag, body, env, some v⟩ v) :
    Beside base limit a (s.addCell ⟨id, tag, body, env, some v⟩) where
  later := beside.later.trans (.filling there v)
  closed := beside.closed
  origin := beside.origin
  built other d w last filled := by
    rw [Store.cellAdded] at last
    split at last
    · obtain rfl := Option.some.inj last
      obtain rfl := Option.some.inj filled
      exact .inr (built.grow fun _ => Kept.filling there v _)
    · exact (beside.built other d w last filled).imp_right fun before =>
        before.grow fun _ => Kept.filling there v _

theorem fillBoth (there : s.cell? id = some ⟨id, tag, body, env, none⟩)
    (built : Built limit s ⟨id, tag, body, env, some v⟩ v) :
    Beside base limit (a.addCell ⟨id, tag, body, env, some v⟩)
      (s.addCell ⟨id, tag, body, env, some v⟩) where
  later := beside.later.addBoth _
  closed := beside.closedFill found based
  origin := beside.originFill found
  built := (beside.fillRight there built).built

theorem fillLeft (there : s.cell? id = some ⟨id, tag, body, env, some v⟩) :
    Beside base limit (a.addCell ⟨id, tag, body, env, some v⟩) s where
  later := beside.later.addLeft there
  closed := beside.closedFill found based
  origin := beside.originFill found
  built := beside.built

end
end Beside

section
variable {w : Store} {id : Name}

theorem cellFound {c : Cell} (found : w.cell? id = some c) :
    Run.cell? id w = (.done (some c), w) := congrArg (fun o => (Exit.done o, w)) found

theorem fillEmpty {tag : Option Text} {body : Expr} {env : Env}
    (found : w.cell? id = some ⟨id, tag, body, env, none⟩) (v : Value) :
    Run.fill id v w = (.done v, w.addCell ⟨id, tag, body, env, some v⟩) :=
  (Eff.bindOfDone (cellFound found)).trans rfl

theorem forceFound (e : Env → Expr → Run Value) {c : Cell} {v : Value}
    (found : w.cell? id = some c) (filled : c.built = some v) : force e id w = (.done v, w) := by
  obtain ⟨name, tag, body, env, built⟩ := c
  obtain rfl : built = some v := filled
  exact (Eff.bindOfDone (cellFound found)).trans rfl

end

section
variable (quiet : Bool) (limit : Nat) {a : Store} {id : Name}

theorem forceFilled {c : Cell} {v : Value} (found : a.cell? id = some c)
    (filled : c.built = some v) : forcePlainly quiet limit id a = (.done v, a) := by
  simp only [forcePlainly, Run.hush, forceFound _ found filled, ite_self]

variable {tag : Option Text} {body : Expr} {env : Env}
  (found : a.cell? id = some ⟨id, tag, body, env, none⟩) (stage : a.name.stage = .stepping)

include found in
theorem forceUnfilled (e : Env → Expr → Run Value) :
    force e id a = (Run.building id (build e tag body env) >>= Run.fill id) a :=
  (Eff.bindOfDone (cellFound found)).trans rfl

include stage in
theorem buildingPlainly {exit : Exit Value} {after : Store}
    (run : buildPlainly limit ⟨id, tag, body, env, none⟩ a = (exit, after)) :
    Run.building id (build (evalWith (callFunction limit)) tag body env) a =
      (exit, after.naming a.name) := by
  have same : build (evalWith (callFunction limit)) tag body env
      (a.naming (.inner id .stepping 0 0)) = (exit, after) := run
  simp only [Run.building, stage, same]

include found stage

variable {cells : List Cell} {events : List Event} {name : Name}

theorem forceRaised {fault : Fault} (run : buildPlainly limit ⟨id, tag, body, env, none⟩ a =
      (.raised fault, a.adding cells events name)) :
    forcePlainly quiet limit id a =
      (.raised fault, a.adding cells (if quiet then [] else events) a.name) := by
  unfold forcePlainly Run.hush
  rw [forceUnfilled found, Eff.bindOfRaised (buildingPlainly limit stage run)]
  cases quiet <;> simp [Store.adding, Store.naming]

theorem forceDone {v : Value} (run : buildPlainly limit ⟨id, tag, body, env, none⟩ a =
      (.done v, a.adding cells events name)) (fresh : Fresh id cells) :
    forcePlainly quiet limit id a = (.done v, (a.adding cells (if quiet then [] else events)
      a.name).addCell ⟨id, tag, body, env, some v⟩) := by
  have there := (fresh.itself a events name).trans found
  have filled : Run.fill id v ((a.adding cells events name).naming a.name) = (.done v,
      ((a.adding cells events name).naming a.name).addCell ⟨id, tag, body, env, some v⟩) :=
    fillEmpty (w := (a.adding ..).naming a.name) there v
  unfold forcePlainly Run.hush
  rw [forceUnfilled found, Eff.bindOfDone (buildingPlainly limit stage run), filled]
  cases quiet <;> simp [Store.adding, Store.naming, Store.addCell]

theorem forceShort {after : Store}
    (run : buildPlainly limit ⟨id, tag, body, env, none⟩ a = (.exhausted, after)) :
    (forcePlainly quiet limit id a).1 = .exhausted := by
  unfold forcePlainly Run.hush
  rw [forceUnfilled found, Eff.bindOfExhausted (buildingPlainly limit stage run)]

end

/- What is heard of two runs: if the right one is quiet then no more than of the left one, and
the same if both are. -/
def Heard (quiet quiet' : Bool) (a s : Array Event) : Prop :=
  quiet' = true → s.toList.Sublist a.toList ∧ (quiet = true → a = s)

namespace Heard
variable {quiet quiet' : Bool} {a s : Array Event} (heard : Heard quiet quiet' a s)
include heard

theorem push (e : Event) : Heard quiet quiet' (a.push e) (s.push e) := by
  intro still
  obtain ⟨sub, same⟩ := heard still
  refine ⟨?_, fun both => by rw [same both]⟩
  simpa only [Array.toList_push] using sub.append_right [e]

theorem hushLeft (events : List Event) :
    Heard quiet quiet' (a ++ (if quiet then [] else events).toArray) s := by
  intro still
  obtain ⟨sub, same⟩ := heard still
  refine ⟨?_, fun both => by simp [both, same both]⟩
  rw [Array.toList_append]
  exact sub.trans (List.sublist_append_left ..)

theorem hush (events : List Event) :
    Heard quiet quiet' (a ++ (if quiet then [] else events).toArray)
      (s ++ (if quiet' then [] else events).toArray) := by
  intro still
  obtain ⟨sub, same⟩ := heard.hushLeft events still
  simpa [still] using And.intro sub same

end Heard

section
variable {base : Store} (preparing : base.Preparing) (limit : Nat) (quiet quiet' : Bool)
  (side : Side) (ahead : Nat) (level : side = .left → ahead = 0)

def Coupling.beside : Coupling where
  side := side
  ahead := ahead
  level := level
  agree a s := Beside base limit a s ∧ Heard quiet quiet' a.events s.events ∧
    ∃ serial shared, a.name = .outer .stepping serial shared ∧
      s.name = .outer .stepping serial shared
  name := by
    rintro a s ⟨_, _, serial, shared, left, right⟩
    rw [left, right]
  next := by
    rintro a s ⟨beside, heard, serial, shared, left, right⟩
    rw [left, right]
    exact ⟨beside.naming _, heard, serial + 1, shared, rfl, rfl⟩
  event := by
    rintro a s e ⟨beside, heard, named⟩
    exact ⟨beside.addEvent e, heard.push e, named⟩
  share := by
    rintro a s tag body env ⟨beside, heard, serial, shared, left, right⟩ based
    rw [left, right]
    exact ⟨(beside.naming _).share preparing based, heard, serial, shared + 1, rfl, rfl⟩

end

theorem Store.addingInj {w : Store} {cells cells' : List Cell} {events events' : List Event}
    {name name' : Name} (same : w.adding cells events name = w.adding cells' events' name') :
    cells = cells' ∧ events = events' ∧ name = name' := by
  simp only [adding, Store.mk.injEq, Array.append_right_inj] at same
  exact ⟨congrArg Array.toList same.1, congrArg Array.toList same.2.1, same.2.2⟩

theorem Alike.ofDone {c : Cell} {a u : Store} {x : Exit Value × Store} {v : Value}
    {cells : List Cell} {events : List Event} {name : Name}
    (alike : Alike c a u x (.done v, u.adding cells events name)) :
    x = (.done v, a.adding cells events name) ∧ (a.adding cells events name).Closed ∧
      Over (a.adding cells events name).known v := by
  generalize same : (Exit.done v, u.adding cells events name) = y at alike
  cases alike with
  | short a' s' => simp at same
  | raised fresh closed => simp at same
  | done fresh closed based =>
    obtain ⟨value, made⟩ := Prod.mk.inj same
    obtain rfl := Exit.done.inj value
    obtain ⟨rfl, rfl, rfl⟩ := Store.addingInj made
    exact ⟨rfl, closed, based⟩

theorem Beside.builds {base a s : Store} {limit : Nat} (beside : Beside base limit a s)
    {id : Name} {tag : Option Text} {body : Expr} {env : Env} {v : Value}
    (found : a.cell? id = some ⟨id, tag, body, env, none⟩)
    (there : s.cell? id = some ⟨id, tag, body, env, some v⟩) :
    ∃ cells events name, buildPlainly limit ⟨id, tag, body, env, none⟩ a =
        (.done v, a.adding cells events name) ∧ Fresh id cells ∧ Kept (latest cells) s.cell? ∧
      (a.adding cells events name).Closed ∧ Over (a.adding cells events name).known v := by
  rcases beside.built id _ v there rfl with old | ⟨u, cells, events, name, run, fresh, kept⟩
  · obtain ⟨c, here, later⟩ := beside.origin id _ old
    obtain rfl := Option.some.inj (found.symm.trans here)
    cases later
  · have alike := buildsAlike beside.closed u (beside.closed id _ found).1 limit
    rw [show buildPlainly limit ⟨id, tag, body, env, none⟩ u = _ from run] at alike
    obtain ⟨same, closed, based⟩ := alike.ofDone
    exact ⟨cells, events, name, same, fresh, kept, closed, based⟩

section
variable {base : Store} {preparing : base.Preparing} {limit : Nat} {quiet quiet' : Bool}
  {side : Side} {ahead : Nat} {level : side = .left → ahead = 0} {a s : Store} {less : Nat}
  {id : Name} {tag : Option Text} {body : Expr} {env : Env}
  (agree : (Coupling.beside preparing limit quiet quiet' side ahead level).agree a s)
  (found : a.cell? id = some ⟨id, tag, body, env, none⟩)
  (enough : side = .right → limit ≤ ahead) (within : less ≤ limit)
include agree found

include enough within in
theorem forceLeft {v : Value} (there : s.cell? id = some ⟨id, tag, body, env, some v⟩) :
    Meets (.beside preparing limit quiet quiet' side ahead level) a.known
      (forcePlainly quiet (less + ahead) id a) (forcePlainly quiet' less id s) := by
  obtain ⟨beside, heard, serial, shared, left, right⟩ := agree
  have stage : a.name.stage = .stepping := by rw [left]; rfl
  obtain ⟨cells, events, name, run, fresh, kept, closed, based⟩ := beside.builds found there
  rw [forceFilled quiet' less there rfl]
  have either : buildPlainly (less + ahead) ⟨id, tag, body, env, none⟩ a =
      (.done v, a.adding cells events name) ∨
        side = .left ∧ (buildPlainly (less + ahead) ⟨id, tag, body, env, none⟩ a).1 =
          .exhausted := by
    cases side with
    | left =>
      rw [level rfl]
      refine (buildPlainlyBelow within _ a).imp (fun same => same.trans run) fun short => ?_
      exact ⟨rfl, short⟩
    | right =>
      have le : limit ≤ less + ahead := Nat.le_add_left_of_le (enough rfl)
      exact .inl ((buildPlainlyBelow le _).ends run (by simp))
  rcases either with same | ⟨rfl, short⟩
  · rw [forceDone quiet (less + ahead) found stage same fresh]
    have made : Beside base limit (a.adding cells (if quiet then [] else events) a.name) s :=
      beside.addingLeft preparing fresh closed kept
    have here := (fresh.itself a (if quiet then [] else events) a.name).trans found
    have larger := Store.knownAdded (a.adding cells (if quiet then [] else events) a.name)
      ⟨id, tag, body, env, some v⟩
    exact .done ⟨made.fillLeft here based there, heard.hushLeft events, serial, shared, left,
        right⟩
      ((Store.knownAdding ..).trans larger) (Cellular.grow larger based)
  · exact .short (forceShort quiet _ found stage (Prod.ext short rfl))

include within in
theorem forceBoth (there : s.cell? id = some ⟨id, tag, body, env, none⟩) :
    Meets (.beside preparing limit quiet quiet' side ahead level) a.known
      (forcePlainly quiet (less + ahead) id a) (forcePlainly quiet' less id s) := by
  obtain ⟨beside, heard, serial, shared, left, right⟩ := agree
  have stage : a.name.stage = .stepping := by rw [left]; rfl
  have stage' : s.name.stage = .stepping := by rw [right]; rfl
  have more := buildPlainlyBelow (Nat.le_add_right less ahead) ⟨id, tag, body, env, none⟩
  have alike := buildsAlike beside.closed s (beside.closed id _ found).1 less
  generalize first : buildPlainly less ⟨id, tag, body, env, none⟩ a = x at alike
  generalize second : buildPlainly less ⟨id, tag, body, env, none⟩ s = y at alike
  cases alike with
  | short a' s' =>
    refine .short ?_
    cases side with
    | left =>
      obtain rfl := level rfl
      exact forceShort quiet less found stage first
    | right => exact forceShort quiet' less there stage' second
  | @raised fault cells events name fresh closed =>
    rw [forceRaised quiet _ found stage (more.ends first (by simp)),
      forceRaised quiet' _ there stage' second]
    exact .raised ⟨beside.addingBoth preparing fresh closed there rfl, heard.hush events, serial,
      shared, left, right⟩ (Store.knownAdding ..)
  | @done v cells events name fresh closed based =>
    rw [forceDone quiet _ found stage (more.ends first (by simp)) fresh,
      forceDone quiet' _ there stage' second fresh]
    have made : Beside base limit (a.adding cells (if quiet then [] else events) a.name)
        (s.adding cells (if quiet' then [] else events) s.name) :=
      beside.addingBoth preparing fresh closed there rfl
    have here := (fresh.itself a (if quiet then [] else events) a.name).trans found
    have here' := (fresh.itself s (if quiet' then [] else events) s.name).trans there
    have built : Built limit (s.adding cells (if quiet' then [] else events) s.name)
        ⟨id, tag, body, env, some v⟩ v := by
      refine ⟨s, cells, events, name, (buildPlainlyBelow within _).ends second (by simp), fresh,
        fun other c new => ⟨c, ?_, .same c⟩⟩
      rw [Store.cellAdding, new, Option.some_or]
    have larger := Store.knownAdded (a.adding cells (if quiet then [] else events) a.name)
      ⟨id, tag, body, env, some v⟩
    exact .done ⟨made.fillBoth here based here' built, heard.hush events, serial, shared,
        left, right⟩
      ((Store.knownAdding ..).trans larger) (Cellular.grow larger based)

end

section
variable {base : Store} {preparing : base.Preparing} {limit : Nat} {quiet quiet' : Bool}
  {side : Side} {ahead : Nat} {level : side = .left → ahead = 0}
  (enough : side = .right → limit ≤ ahead)
include enough

theorem forceBeside {less : Nat} (within : less ≤ limit) {known : Set Name} {id : Name}
    (there : id ∈ known) :
    Coupled (.beside preparing limit quiet quiet' side ahead level) known
      (forcePlainly quiet (less + ahead) id) (forcePlainly quiet' less id) := by
  intro a s agree grown
  obtain ⟨c, found⟩ := Option.isSome_iff_exists.mp (grown there)
  obtain ⟨d, last, later⟩ := agree.1.later id c found
  obtain rfl := Store.cellNamed found
  cases later with
  | filled name tag body env v => exact forceLeft agree found enough within last
  | same =>
    obtain ⟨name, tag, body, env, built⟩ := c
    cases built with
    | none => exact forceBoth agree found within last
    | some v =>
      rw [forceFilled quiet _ found rfl, forceFilled quiet' _ last rfl]
      exact .done agree subset_rfl ((agree.1.closed _ _ found).2 v rfl)

theorem callBeside :
    Callers (.beside preparing limit quiet quiet' side ahead level)
      (callPlainly quiet (limit + ahead)) (callPlainly quiet' limit) :=
  callForcingCoupled (K := .beside preparing limit quiet quiet' side ahead level)
    (fun _ less _ _ _ there => forceBeside enough less.le there) limit (Nat.le_refl limit)

end

end ParseKit.Script
