import ParseKit.Proofs.Exchange.Wary
import ParseKit.Proofs.History.Shared

/-! A shared parser and the parser that its expression gives, each in the place of the other. On one
side an application builds the parser in the cell, and makes what the building has made before; on
the other side the parser is there. Wary calls on the left go along calls on the right either way,
where the parsers of cells are built anew on both sides. -/
namespace ParseKit.Script
open Filter (Eventually atTop)

namespace Thunk
variable (t : Thunk)

/- On this side an application finds the cell, and on the other one the parser. -/
def standsFor : Side → Value → Value → Prop
  | .left, v, v' => (∃ mark, v = .parser mark (.shared t.cell.name)) ∧ v' = t.parser
  | .right, v, v' => v = t.parser ∧ ∃ mark, v' = .parser mark (.shared t.cell.name)

theorem standParsers {side : Side} {v v' : Value} (stands : t.standsFor side v v') :
    v.isParser = true ∧ v'.isParser = true := by
  cases side with
  | left =>
    obtain ⟨⟨mark, rfl⟩, rfl⟩ := stands
    exact ⟨rfl, t.isParser⟩
  | right =>
    obtain ⟨rfl, mark, rfl⟩ := stands
    exact ⟨t.isParser, rfl⟩

def exchange (side : Side) : Exchange where
  marks _ := false
  left := none
  right := none
  cells := Eq
  agree := Exchange.nothingMeant
  swapped := t.standsFor side
  parsers := t.standParsers

theorem itself (side : Side) : (t.exchange side).Reflexive := ⟨rfl, fun _ => rfl⟩

def At : Side → Store → Store → Prop
  | .left, a, _ => t.In a
  | .right, _, s => t.In s

variable {t}

theorem At.to {side : Side} {a a' s s' : Store} (there : t.At side a s) (left : t.In a → t.In a')
    (right : t.In s → t.In s') : t.At side a' s' := by
  cases side with
  | left => exact left there
  | right => exact right there

variable (t) in
def accord (side : Side) : Accord (t.exchange side) where
  agree a s := a.Alike (t.exchange side) s ∧ t.At side a s ∧
    ∃ serial shared, a.name = .outer .stepping serial shared
  cell agree := agree.1.cell
  next := by
    rintro a s ⟨alike, there, serial, shared, named⟩
    exact ⟨((t.exchange side).telling rfl).next alike, there.to (·.naming _) (·.naming _), serial + 1,
      shared, congrArg Name.next named⟩
  nextLeft _ points := absurd rfl points
  nextRight _ points := absurd rfl points
  note := by
    rintro a s v v' ⟨alike, there, named⟩ value
    exact ⟨((t.exchange side).telling rfl).note alike value,
      there.to (·.addEvent _) (·.addEvent _), named⟩
  record := by
    rintro a s r ⟨alike, there, named⟩
    exact ⟨((t.exchange side).telling rfl).record r alike,
      there.to (·.addEvent _) (·.addEvent _), named⟩
  recordLeft _ _ lone := by
    obtain ⟨_, _, point, _⟩ := lone.point
    cases point
  recordRight _ _ lone := by
    obtain ⟨_, _, point, _⟩ := lone.point
    cases point
  share := by
    rintro a s tag body env env' ⟨alike, there, serial, shared, named⟩ bound
    have cell : a.name.ofCell = .outer .stepping 0 shared := congrArg Name.ofCell named
    exact ⟨((t.exchange side).telling rfl).share tag body alike bound,
      there.to (fun here => (here.naming _).share cell)
        fun here => (here.naming _).share (alike.cell.symm.trans cell),
      serial, shared + 1, congrArg Name.nextCell named⟩

end Thunk

section
variable {X : Exchange}

theorem latestAlike (id id' : Name) (named : ∀ i i', X.cells i i' → (i = id ↔ i' = id'))
    {cells cells' : List Cell} (alikes : cells.Forall₂ (Cell.Alike X) cells') :
    Option.Rel (Cell.Alike X) (latest cells id) (latest cells' id') := by
  have turned := List.rel_reverse alikes
  unfold latest
  rw [List.findRev?_eq_find?_reverse, List.findRev?_eq_find?_reverse]
  generalize cells.reverse = ds at turned
  generalize cells'.reverse = ds' at turned
  induction turned with
  | nil => exact .none
  | @cons c c' _ _ cell _ ih =>
    have same : (c.name == id) = (c'.name == id') := by
      simpa only [beq_eq_beq] using named _ _ cell.name
    simp only [List.find?_cons, ← same]
    split
    · exact .some cell
    · exact ih

theorem Store.Alike.adding (own : X.cells = Eq) {a s : Store} (alike : a.Alike X s)
    {cells cells' : List Cell} (alikes : cells.Forall₂ (Cell.Alike X) cells') :
    Store.Alike X (a.adding cells [] a.name) (s.adding cells' [] s.name) := by
  refine ⟨alike.cell, fun id => ?_, by simpa [Store.adding] using alike.events⟩
  have found := latestAlike id id
    (fun i i' cell => by rw [own] at cell; rw [cell]) alikes
  rw [Store.cellAdding, Store.cellAdding]
  generalize latest cells id = o at found
  generalize latest cells' id = o' at found
  cases found with
  | none => simpa only [Option.none_or] using alike.cells id
  | some cell => exact .some cell

theorem Store.Alike.cellThere {a s : Store} (alike : a.Alike X s) {id : Name} {c : Cell}
    (here : a.cell? id = some c) : ∃ c', s.cell? id = some c' ∧ c.Alike X c' := by
  have found := alike.cells id
  rw [here] at found
  generalize s.cell? id = o at found
  cases found with
  | some cell => exact ⟨_, rfl, cell⟩

def Exchange.building (X : Exchange) (left : X.left = none) (right : X.right = none) (id id' : Name)
    (within : ∀ shared, X.cells (.inner id .stepping 0 shared) (.inner id' .stepping 0 shared))
    (a s : Store) : Accord X where
  agree u w := ∃ cells cells' events events' serial shared,
    u = a.adding cells events (.inner id .stepping serial shared) ∧
      w = s.adding cells' events' (.inner id' .stepping serial shared) ∧
        Fresh id cells ∧ Fresh id' cells' ∧ cells.Forall₂ (Cell.Alike X) cells'
  cell := by
    rintro _ _ ⟨cells, cells', events, events', serial, shared, rfl, rfl, _⟩
    exact within shared
  next := by
    rintro _ _ ⟨cells, cells', events, events', serial, shared, rfl, rfl, made⟩
    exact ⟨cells, cells', events, events', serial + 1, shared, rfl, rfl, made⟩
  nextLeft _ points := absurd left points
  nextRight _ points := absurd right points
  note := by
    rintro _ _ v v' ⟨cells, cells', events, events', serial, shared, rfl, rfl, made⟩ _
    exact ⟨cells, cells', events ++ [.note v], events' ++ [.note v'], serial, shared,
      Store.addingEvent .., Store.addingEvent .., made⟩
  record := by
    rintro _ _ r ⟨cells, cells', events, events', serial, shared, rfl, rfl, made⟩
    exact ⟨cells, cells', events ++ [.record r], events' ++ [.record r], serial, shared,
      Store.addingEvent .., Store.addingEvent .., made⟩
  recordLeft _ _ lone := by
    obtain ⟨_, _, point, _⟩ := lone.point
    cases left.symm.trans point
  recordRight _ _ lone := by
    obtain ⟨_, _, point, _⟩ := lone.point
    cases right.symm.trans point
  share := by
    rintro _ _ tag body env env' ⟨cells, cells', events, events', serial, shared, rfl, rfl, fresh,
      fresh', alikes⟩ bound
    refine ⟨cells ++ [⟨.inner id .stepping 0 shared, tag, body, env, none⟩],
      cells' ++ [⟨.inner id' .stepping 0 shared, tag, body.meant X.onRight, env', none⟩], events,
      events', serial, shared + 1, Store.addingCell .., Store.addingCell .., fresh.append rfl rfl,
      fresh'.append rfl rfl,
      List.rel_append alikes (.cons ⟨within shared, rfl, rfl, bound, .none⟩ .nil)⟩

theorem functionsAlong {K : Accord X} (m : Nat) :
    CallersAlong K (callFunctionMarked X.onLeft m) (fun k => callFunction (k + m)) := by
  induction m with
  | zero => exact fun _ _ _ => .short
  | succ m calls =>
    intro f f' args args' named named' function given names
    by_cases parser : f.isParser = true
    · obtain ⟨mark, g, rfl⟩ := Value.parserOf parser
      exact .short
    · have other : ∀ mark g, f ≠ .parser mark g := by
        rintro mark g rfl
        exact parser rfl
      have other' : ∀ mark g, f' ≠ .parser mark g := by
        rintro mark g rfl
        cases function.shaped
        exact parser rfl
      have right : (fun k => callFunction (k + (m + 1)) f' args' named') = fun k =>
          callWith (callFunction (k + m)) (k + m) f' args' named' :=
        funext fun k => by rw [← Nat.add_assoc, callFunctionOther other']
      rw [callFunctionMarkedOther other, right]
      exact callPlaceAlong calls m (fun k => k + m) function other given names

end

def buildWary (limit : Nat) (c : Cell) : Run Value := fun w =>
  build (evalMarked .clear (callFunctionMarked .clear limit)) c.tag c.body c.env
    (w.naming (.inner c.name .stepping 0 0))

theorem buildWaryBelow (limit : Nat) (c : Cell) :
    Eff.Below (buildWary limit c) (buildPlainly limit c) := fun w =>
  buildBelow (fun env e => evalCheckedBelow (functionsWaryBelow limit) env e) c.tag c.body c.env
    (w.naming (.inner c.name .stepping 0 0))

theorem buildsAlong {X : Exchange} (left : X.left = none) (right : X.right = none)
    (clear : X.onLeft = .clear) {c c' : Cell} (cell : c.Alike X c')
    (within : ∀ shared, X.cells (.inner c.name .stepping 0 shared) (.inner c'.name .stepping 0 shared))
    (m : Nat) (a s : Store) (ended : (buildWary m c a).1 ≠ .exhausted) :
    ∃ q, (∀ᶠ k in atTop, buildPlainly (k + m) c' s = q) ∧
      Joined (X.building left right c.name c'.name within a s) (Value.Alike X) (buildWary m c a) q := by
  have along := buildAlong (K := X.building left right c.name c'.name within a s)
    (evalsAlong (functionsAlong m)) c.tag c.body cell.env
  rw [clear] at along
  obtain ⟨q, same, joined⟩ := along (a.naming (.inner c.name .stepping 0 0))
    (s.naming (.inner c'.name .stepping 0 0)) ⟨[], [], [], [], 0, 0, (Store.addingNone ..).symm,
      (Store.addingNone ..).symm, nofun, nofun, .nil⟩ ended
  refine ⟨q, same.mono fun k run => ?_, joined⟩
  rw [buildPlainly, ← cell.tag, cell.body]
  exact run

namespace Thunk
variable {t : Thunk} {side : Side}

section
variable {a s : Store}

theorem stageLeft (agree : (t.accord side).agree a s) : a.name.stage = .stepping := by
  obtain ⟨_, _, serial, shared, named⟩ := agree
  rw [named]
  rfl

theorem stageRight (agree : (t.accord side).agree a s) : s.name.stage = .stepping :=
  (Name.stageSame agree.1.cell).symm.trans (stageLeft agree)

end

theorem rebuilt {a s : Store} (agree : (t.accord side).agree a s) {c c' : Cell}
    (here : a.cell? c.name = some c) (there : s.cell? c'.name = some c') {n n' : Nat}
    {exit exit' : Exit Value} {cells cells' : List Cell} {events events' : List Event}
    {name name' : Name} (run : buildPlainly n c a = (exit, a.adding cells events name))
    (run' : buildPlainly n' c' s = (exit', s.adding cells' events' name'))
    (ended : exit ≠ .exhausted) (ended' : exit' ≠ .exhausted) (fresh : Fresh c.name cells)
    (fresh' : Fresh c'.name cells') (alikes : cells.Forall₂ (Cell.Alike (t.exchange side)) cells') :
    (t.accord side).agree (a.adding cells [] a.name) (s.adding cells' [] s.name) :=
  ⟨agree.1.adding rfl alikes, agree.2.1.to (·.rebuilt here run ended fresh)
    (·.rebuilt there run' ended' fresh'), agree.2.2⟩

theorem renewedNone {e : Env → Expr → Run Value} {w : Store} {id : Name} (none : w.cell? id = none) :
    (Run.hush true (renew e id) w).1 = .exhausted := by
  have read : Run.cell? id w = (.done .none, w) := by simp [Run.cell?, none]
  simp only [Run.hush, renew, Eff.bindOfDone read]
  rfl

theorem forcesAlong (m : Nat) {id id' : Name} (same : id = id') :
    Along (t.accord side) (Value.Alike (t.exchange side)) (forceWary m id)
      (fun k => forceAnew (k + m) id') := by
  subst same
  intro a s agree ended
  have stage := stageLeft agree
  cases here : a.cell? id with
  | none => exact absurd (renewedNone here) ended
  | some c =>
    obtain ⟨⟨name', tag', body', env', built'⟩, last, cell⟩ := agree.1.cellThere here
    obtain rfl := Store.cellNamed here
    obtain rfl : c.name = name' := cell.name
    obtain ⟨q, same, joined⟩ := buildsAlong rfl rfl rfl cell (fun _ => rfl) m a s fun cut =>
      ended (renewedShort here stage (Prod.ext cut rfl))
    obtain ⟨k, run'⟩ := same.exists
    rw [forceWary]
    generalize run : buildWary m c a = p at joined
    cases joined with
    | done built value =>
      obtain ⟨cells, cells', events, events', _, _, rfl, rfl, fresh, fresh', alikes⟩ := built
      rw [renewedQuietly here stage run]
      refine ⟨_, same.mono fun k run => renewedQuietly last (stageRight agree) run, .done ?_ value⟩
      exact rebuilt agree here last
        ((buildWaryBelow m c).ends run nofun) run' nofun nofun fresh fresh' alikes
    | raised built =>
      obtain ⟨cells, cells', events, events', _, _, rfl, rfl, fresh, fresh', alikes⟩ := built
      rw [renewedQuietly here stage run]
      refine ⟨_, same.mono fun k run => renewedQuietly last (stageRight agree) run, .raised ?_⟩
      exact rebuilt agree here last
        ((buildWaryBelow m c).ends run nofun) run' nofun nofun fresh fresh' alikes

theorem givesQuietly {w : Store} (there : t.In w) (stage : w.name.stage = .stepping) {n : Nat}
    (enough : t.limit ≤ n) :
    forceAnew n t.cell.name w = (.done t.parser, w.adding t.cells [] w.name) := by
  obtain ⟨events, name, run⟩ := t.gives n enough w
  exact renewedQuietly there.cell stage run

theorem givesWarily {w : Store} (there : t.In w) (stage : w.name.stage = .stepping) {m : Nat}
    (ended : (forceWary m t.cell.name w).1 ≠ .exhausted) :
    forceWary m t.cell.name w = (.done t.parser, w.adding t.cells [] w.name) := by
  have below := (forceWaryBelow m t.cell.name).trans
    (forceAnewBelow (Nat.le_max_left m t.limit) t.cell.name)
  have given := below.ends rfl ended
  rw [givesQuietly there stage (Nat.le_max_right m t.limit)] at given
  exact given.symm

section
variable {a s : Store}

theorem againLeft (agree : (t.accord .left).agree a s) :
    (t.accord .left).agree (a.adding t.cells [] a.name) s := by
  obtain ⟨alike, there, named⟩ := agree
  refine ⟨⟨alike.cell, fun id => ?_, by simpa [Store.adding] using alike.events⟩, there.kept, named⟩
  rw [there.again]
  exact alike.cells id

theorem againRight (agree : (t.accord .right).agree a s) :
    (t.accord .right).agree a (s.adding t.cells [] s.name) := by
  obtain ⟨alike, there, named⟩ := agree
  refine ⟨⟨alike.cell, fun id => ?_, by simpa [Store.adding] using alike.events⟩, there.kept, named⟩
  rw [there.again]
  exact alike.cells id

end

section
variable {m : Nat}

theorem sharedWary (mark : Mark) (id : Name) (text : Text) :
    callWary (m + 1) (.parser mark (.shared id)) [.str text] [] =
      forceWary m id >>= fun p => callWary m p [.str text] [] := rfl

theorem sharedAnew (mark : Mark) (id : Name) (text : Text) :
    callAnew (m + 1) (.parser mark (.shared id)) [.str text] [] =
      forceAnew m id >>= fun p => callAnew m p [.str text] [] := rfl

variable (calls : CallersAlong (t.accord side) (callWary m) (fun k => callAnew (k + m)))
include calls

theorem swapsAlong {v v' : Value} (stands : t.standsFor side v v') (text : Text) :
    Along (t.accord side) (Value.Alike (t.exchange side)) (callWary (m + 1) v [.str text] [])
      (fun k => callAnew (k + m + 1) v' [.str text] []) := by
  have inputs : AllAlike (t.exchange side) [.str text] [.str text] := .cons (.str text) .nil
  cases side with
  | left =>
    obtain ⟨⟨mark, rfl⟩, rfl⟩ := stands
    intro a s agree ended
    rw [sharedWary] at ended ⊢
    have given := givesWarily agree.2.1 (stageLeft agree) (headEnds ended)
    rw [Eff.bindOfDone given] at ended ⊢
    have along := (calls (Value.alikeItself (t.itself .left) t.parser) inputs .nil).later
    simp only [Nat.succ_add] at along
    exact along _ s (againLeft agree) ended
  | right =>
    obtain ⟨rfl, mark, rfl⟩ := stands
    obtain ⟨mark', g, same⟩ := Value.parserOf t.isParser
    have along : Along (t.accord .right) (Value.Alike (t.exchange .right))
        (callWary (m + 1) t.parser [.str text] []) (fun k => callAnew (k + m) t.parser [.str text] [])
        := by
      refine .ofLater ?_
      simp only [Nat.succ_add, same]
      exact grammarAlong calls (forcesAlong m) (Grammar.alikeItself (t.itself .right) g) mark' mark'
        text
    intro a s agree ended
    obtain ⟨q, equal, joined⟩ := along a _ (againRight agree) ended
    refine ⟨q, ?_, joined⟩
    filter_upwards [equal, Filter.eventually_ge_atTop t.limit] with k run enough
    rw [sharedAnew, Eff.bindOfDone (givesQuietly agree.2.1 (stageRight agree)
      (Nat.le_add_right_of_le enough))]
    exact run

end

theorem callsAlong (m : Nat) :
    CallersAlong (t.accord side) (callWary m) (fun k => callAnew (k + m)) :=
  Script.callsAlong (fun m _ _ _ same => forcesAlong m same)
    (fun _ calls _ _ stands => swapsAlong calls stands) m

end Thunk

end ParseKit.Script
