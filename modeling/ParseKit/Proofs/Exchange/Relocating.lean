import ParseKit.Proofs.Calling
import ParseKit.Proofs.Exchange.Renaming
import ParseKit.Proofs.Exchange.Unfolding
import ParseKit.Proofs.History.Lasting

/-! Runs that find more cells to begin with, so that those they make have other names. What a step makes
is counted, and on the right it is counted otherwise. Main statement: what a wary run comes to from one
store it comes to from every store in which the cells last, up to the names of what it makes. -/
namespace ParseKit.Script
open Filter (Eventually atTop)

namespace Name

def moved (h : Nat → Nat) : Name → Name
  | outer .stepping serial cells => outer .stepping serial (h cells)
  | inner cell .stepping serial cells => inner (cell.moved h) .stepping serial cells
  | name => name

variable {h g : Nat → Nat}

theorem movedId : (id : Name) → id.moved (fun n => n) = id
  | outer .stepping .. | outer .preparing .. | inner _ .preparing .. => rfl
  | inner cell .stepping serial cells => congrArg (inner · .stepping serial cells) cell.movedId

theorem movedInj (injective : Function.Injective h) : {i j : Name} → i.moved h = j.moved h → i = j
  | outer .stepping .., outer .stepping .., same => by
    obtain ⟨_, rfl, counts⟩ := outer.inj same
    rw [injective counts]
  | inner .., inner .., same => by
    rename_i i stage _ _ j stage' _ _
    cases stage <;> cases stage'
    · exact same
    · cases same
    · cases same
    · obtain ⟨cells, _, rfl, rfl⟩ := inner.inj same
      rw [movedInj injective cells]
  | outer .preparing .., outer .preparing .., same => same
  | outer .preparing .., outer .stepping .., same | outer .stepping .., outer .preparing .., same => by
    cases same
  | outer .preparing .., inner _ stage .., same | outer .stepping .., inner _ stage .., same => by
    cases stage <;> cases same
  | inner _ stage .., outer .preparing .., same | inner _ stage .., outer .stepping .., same => by
    cases stage <;> cases same

theorem movedSame {count : Nat} (same : ∀ n < count, g n = h n) : {id : Name} → id.Before count →
    id.moved g = id.moved h
  | outer .stepping .., before => by
    rcases before with stage | less
    · cases stage
    · simp only [moved, same _ less]
  | inner _ .stepping .., before => by
    rcases before with stage | inside
    · cases stage
    · simp only [moved, movedSame same inside]
  | outer .preparing .., _ | inner _ .preparing .., _ => rfl

end Name

abbrev Exchange.moving (h : Nat → Nat) : Exchange := .placing fun id id' => id.moved h = id'

theorem Exchange.movingNothing : (Exchange.moving fun n => n).Reflexive := ⟨rfl, Name.movedId⟩

theorem Name.countedAlike {h g : Nat → Nat} {w : Store} (settled : w.Settled)
    (same : ∀ n < w.name.count, g n = h n) :
    Wider w.known (fun id id' => id.moved h = id') fun id id' => id.moved g = id' :=
  fun id there _ moved => (Name.movedSame same (settled.before id there)).trans moved

namespace Store

/- The cells of the one store are in the other, where those that steps make are counted otherwise. -/
structure Moved (h : Nat → Nat) (a s : Store) : Prop where
  injective : Function.Injective h
  counts : ∀ i, h (a.name.count + i) = s.name.count + i
  left : ∃ serial, a.name = .outer .stepping serial a.name.count
  right : ∃ serial, s.name = .outer .stepping serial s.name.count
  cells : ∀ id c, a.cell? id = some c →
    ∃ c', s.cell? (id.moved h) = some c' ∧ c.Alike (.moving h) c'

theorem Settled.itself {w : Store} (settled : w.Settled) : Moved (fun n => n) w w where
  injective _ _ same := same
  counts _ := rfl
  left := settled.named
  right := settled.named
  cells id c found := ⟨c, (Name.movedId id).symm ▸ found, c.alikeItself Exchange.movingNothing⟩

namespace Moved
variable {h : Nat → Nat} {a s : Store} (moved : Moved h a s)
include moved

theorem stageLeft : a.name.stage = .stepping := by
  obtain ⟨serial, named⟩ := moved.left
  rw [named]
  rfl

theorem stageRight : s.name.stage = .stepping := by
  obtain ⟨serial, named⟩ := moved.right
  rw [named]
  rfl

theorem cell : a.name.ofCell.moved h = s.name.ofCell := by
  obtain ⟨serial, left⟩ := moved.left
  obtain ⟨serial', right⟩ := moved.right
  have counts := moved.counts 0
  rw [left, right]
  exact congrArg (Name.outer .stepping 0) counts

theorem next : Moved h (a.naming a.name.next) (s.naming s.name.next) := by
  obtain ⟨serial, left⟩ := moved.left
  obtain ⟨serial', right⟩ := moved.right
  have counts := moved.counts
  generalize a.name.count = k at left counts
  generalize s.name.count = k' at right counts
  rw [left, right]
  exact ⟨moved.injective, counts, ⟨serial + 1, rfl⟩, ⟨serial' + 1, rfl⟩, moved.cells⟩

theorem addEvent (d e : Event) : Moved h (a.addEvent d) (s.addEvent e) :=
  ⟨moved.injective, moved.counts, moved.left, moved.right, moved.cells⟩

theorem share (tag : Option Text) (body : Expr) {env env' : Env} (bound : env.Alike (.moving h) env') :
    Moved h ((a.naming a.name.nextCell).addCell ⟨a.name.ofCell, tag, body, env, none⟩)
      ((s.naming s.name.nextCell).addCell
        ⟨s.name.ofCell, tag, body.meant (Exchange.moving h).onRight, env', none⟩) := by
  have same := moved.cell
  obtain ⟨serial, left⟩ := moved.left
  obtain ⟨serial', right⟩ := moved.right
  have counts := moved.counts
  generalize a.name.count = k at left counts
  generalize s.name.count = k' at right counts
  rw [left, right] at same ⊢
  refine ⟨moved.injective, fun i => ?_, ⟨serial, rfl⟩, ⟨serial', rfl⟩, fun id c found => ?_⟩
  · show h (k + 1 + i) = k' + 1 + i
    rw [Nat.add_assoc, counts, Nat.add_assoc]
  · rw [cellAdded] at found ⊢
    split at found
    · rename_i here
      obtain rfl := Option.some.inj found
      exact ⟨_, if_pos (same.symm.trans (congrArg _ here)), same, rfl, rfl, bound, .none⟩
    · rename_i other
      rw [if_neg fun here => other (Name.movedInj moved.injective (same.trans here))]
      exact moved.cells id c found

theorem adding {cells cells' : List Cell} (alikes : cells.Forall₂ (Cell.Alike (.moving h)) cells') :
    Moved h (a.adding cells [] a.name) (s.adding cells' [] s.name) := by
  refine ⟨moved.injective, moved.counts, moved.left, moved.right, fun id c found => ?_⟩
  have made := latestAlike id (id.moved h) (fun i i' cell => by
    rw [← (cell : i.moved h = i')]
    exact ⟨congrArg _, Name.movedInj moved.injective⟩) alikes
  rw [cellAdding] at found ⊢
  generalize latest cells id = o at made found
  generalize latest cells' (id.moved h) = o' at made
  cases made with
  | none => simpa only [Option.none_or] using moved.cells id c (by simpa using found)
  | some cell =>
    obtain rfl := Option.some.inj found
    exact ⟨_, rfl, cell⟩

theorem later (settled : a.Settled) {s' : Store} (settled' : s'.Settled) (lasts : s.Lasts s') :
    ∃ g, (∀ n < a.name.count, g n = h n) ∧ Moved g a s' := by
  -- What is made from now on is counted from where the right store has come to.
  let g (n : Nat) := if n < a.name.count then h n else s'.name.count + (n - a.name.count)
  have same (n : Nat) (less : n < a.name.count) : g n = h n := if_pos less
  have more (i : Nat) : g (a.name.count + i) = s'.name.count + i := by simp [g]
  -- What is counted before is counted elsewhere than all that is counted from the store on.
  have below (n : Nat) (less : n < a.name.count) : h n < s.name.count := by
    by_contra notLess
    have counted := moved.counts (h n - s.name.count)
    rw [Nat.add_sub_cancel' (Nat.le_of_not_lt notLess)] at counted
    have equal := moved.injective counted
    omega
  refine ⟨g, same, fun m n equal => ?_, more, moved.left, settled'.named, fun id c found => ?_⟩
  · have enough := lasts.count
    by_cases first : m < a.name.count <;> by_cases second : n < a.name.count
    · rw [same m first, same n second] at equal
      exact moved.injective equal
    · have less := below m first
      simp only [g, first, second, if_true, if_false] at equal
      omega
    · have less := below n second
      simp only [g, first, second, if_true, if_false] at equal
      omega
    · simp only [g, first, second, if_false] at equal
      omega
  · obtain ⟨c', there, cell⟩ := moved.cells id c found
    have based := settled.closed id c found
    rw [Name.movedSame same (settled.before id (by simp [found]))]
    refine ⟨c', lasts.cells _ c' there, ?_, cell.tag, cell.body, ?_, ?_⟩
    · exact (Name.movedSame same (settled.before _ (by
        simp [Store.cellNamed found, found]))).trans cell.name
    · exact cell.env.within (Name.countedAlike settled same) fun bound mem => (based.1 bound mem).2
    · have built := cell.built
      rw [settled.empty id c found] at built ⊢
      generalize c'.built = o at built ⊢
      cases built
      exact .none

end Moved

end Store

def SeenAlike (left right : Array Event) : Prop :=
  left.toList.map Event.seen = right.toList.map Event.seen

theorem SeenAlike.ofEq {left right : Array Event} (same : left = right) : SeenAlike left right :=
  same ▸ rfl

/- What has been told on two sides, in addition to what had been told before, is seen alike. -/
def TellAlike (before before' left right : Array Event) : Prop :=
  ∃ es fs, left.toList = before.toList ++ es ∧ right.toList = before'.toList ++ fs ∧
    es.map Event.seen = fs.map Event.seen

namespace TellAlike
variable {before before' left right : Array Event}

theorem begin (before before' : Array Event) : TellAlike before before' before before' :=
  ⟨[], [], by simp, by simp, rfl⟩

theorem push (tell : TellAlike before before' left right) {d e : Event} (same : d.seen = e.seen) :
    TellAlike before before' (left.push d) (right.push e) := by
  obtain ⟨es, fs, here, there, seen⟩ := tell
  exact ⟨es ++ [d], fs ++ [e], by simp [here], by simp [there], by simp [seen, same]⟩

theorem nothing (tell : TellAlike before before' before right) : right = before' := by
  obtain ⟨es, fs, here, there, seen⟩ := tell
  obtain rfl : es = [] := by simpa using here
  obtain rfl : fs = [] := by simpa using seen.symm
  exact Array.toList_inj.mp (by simpa using there)

theorem same (tell : TellAlike before before' left right) (seen : SeenAlike before before') :
    SeenAlike left right := by
  obtain ⟨es, fs, here, there, more⟩ := tell
  simp only [SeenAlike, here, there, List.map_append, more] at seen ⊢
  rw [seen]

theorem joined {last right' : Array Event} (tell : TellAlike before before' left right)
    (tell' : TellAlike before last left right') (seen : SeenAlike before' last) :
    SeenAlike right right' := by
  obtain ⟨es, fs, here, there, more⟩ := tell
  obtain ⟨es', fs', here', there', more'⟩ := tell'
  obtain rfl := List.append_cancel_left (here.symm.trans here')
  simp only [SeenAlike, there, there', List.map_append, ← more, ← more'] at seen ⊢
  rw [seen]

end TellAlike

def Accord.relocating (h : Nat → Nat) (before before' : Array Event) : Accord (.moving h) where
  agree a s := a.Moved h s ∧ TellAlike before before' a.events s.events
  cell agree := agree.1.cell
  next agree := ⟨agree.1.next, agree.2⟩
  nextLeft _ points := absurd rfl points
  nextRight _ points := absurd rfl points
  note {_ _ v v'} agree alike :=
    ⟨agree.1.addEvent _ _,
      agree.2.push (d := .note v) (e := .note v') (congrArg Event.note alike.seen)⟩
  record r agree := ⟨agree.1.addEvent _ _, agree.2.push (d := .record r) rfl⟩
  recordLeft _ _ lone := absurd lone Exchange.placesAlone
  recordRight _ _ lone := absurd lone Exchange.placesAlone
  share tag body _ _ agree bound := ⟨agree.1.share tag body bound, agree.2⟩

section
variable {h : Nat → Nat} {before before' : Array Event}

theorem forcesMoved (m : Nat) {id id' : Name} (same : id.moved h = id') :
    Along (.relocating h before before') (Value.Alike (.moving h)) (forceWary m id)
      (fun k => forceAnew (k + m) id') := by
  subst same
  rintro a s ⟨moved, tell⟩ ended
  cases here : a.cell? id with
  | none => exact absurd (Thunk.renewedNone here) ended
  | some c =>
    obtain rfl := Store.cellNamed here
    obtain ⟨c', last, cell⟩ := moved.cells _ c here
    obtain ⟨name', tag', body', env', built'⟩ := c'
    obtain rfl : c.name.moved h = name' := cell.name
    obtain ⟨q, runs, joined⟩ := buildsAlong rfl rfl rfl cell (fun _ => rfl) m a s fun cut =>
      ended (renewedShort here moved.stageLeft (Prod.ext cut rfl))
    rw [forceWary]
    generalize run : buildWary m c a = p at joined
    cases joined with
    | done built value =>
      obtain ⟨cells, cells', events, events', _, _, rfl, rfl, _, _, alikes⟩ := built
      rw [renewedQuietly here moved.stageLeft run]
      exact ⟨_, runs.mono fun k run => renewedQuietly last moved.stageRight run,
        .done ⟨moved.adding alikes, by simpa [Store.adding] using tell⟩ value⟩
    | raised built =>
      obtain ⟨cells, cells', events, events', _, _, rfl, rfl, _, _, alikes⟩ := built
      rw [renewedQuietly here moved.stageLeft run]
      exact ⟨_, runs.mono fun k run => renewedQuietly last moved.stageRight run,
        .raised ⟨moved.adding alikes, by simpa [Store.adding] using tell⟩⟩

theorem callsMoved (m : Nat) : CallersAlong (.relocating h before before') (callWary m)
    (fun k => callAnew (k + m)) :=
  callsAlong (fun m _ _ _ same => forcesMoved m same) (fun _ _ _ _ (none : False) => none.elim) m

end

theorem relocatedSeen {h : Nat → Nat} {before before' : Array Event} {p q : Exit Value × Store}
    (joined : Joined (.relocating h before before') (Value.Alike (.moving h)) p q) :
    Exit.seen p.1 = Exit.seen q.1 ∧ TellAlike before before' p.2.events q.2.events := by
  cases joined with
  | done agree alike => exact ⟨congrArg Exit.done alike.seen, agree.2⟩
  | raised agree => exact ⟨rfl, agree.2⟩

def anew (f v : Value) : Running Value :=
  ⟨fun limit => callAnew limit f [v] [], fun _ _ le => callAnewBelow le f [v] []⟩

theorem endsAnew {m : Nat} {f v : Value} {w after : Store} {exit : Exit Value}
    (run : callWary m f [v] [] w = (exit, after)) (ended : exit ≠ .exhausted) :
    (anew f v).Ends w exit after := ⟨ended, m, (callWaryBelow m f [v] []).ends run ended⟩

theorem anewLasts {w after : Store} (settled : w.Settled) {f v : Value} (function : Over w.known f)
    (value : Over w.known v) {exit : Exit Value} (ends : (anew f v).Ends w exit after) :
    after.Settled ∧ w.Lasts after ∧ ∀ r, exit = .done r → Over after.known r := by
  obtain ⟨ended, limit, run⟩ := ends
  exact callLasts settled function value run ended

theorem relocated {h : Nat → Nat} {a s s' a' : Store} (moved : a.Moved h s) (settled : a.Settled)
    (settled' : s'.Settled) (lasts : s.Lasts s') {f f' v v' : Value}
    (function : f.Alike (.moving h) f') (value : v.Alike (.moving h) v') (known : Over a.known f)
    (given : Over a.known v) {m : Nat} {exit : Exit Value}
    (run : callWary m f [v] [] a = (exit, a')) (ended : exit ≠ .exhausted) :
    ∃ g exit' after, (anew f' v').Ends s' exit' after ∧
      Joined (.relocating g a.events s'.events) (Value.Alike (.moving g)) (exit, a')
        (exit', after) := by
  obtain ⟨g, same, moved'⟩ := moved.later settled settled' lasts
  have here := Name.countedAlike settled same
  have calls : CallersAlong (.relocating g a.events s'.events) (callWary m)
      (fun k => callAnew (k + m)) := callsMoved m
  have along := calls (function.within here known) (.cons (value.within here given) .nil) .nil
  obtain ⟨⟨exit', after⟩, runs, joined⟩ := along a s' ⟨moved', .begin ..⟩ (by rwa [run])
  obtain ⟨k, run'⟩ := runs.exists
  rw [run] at joined
  refine ⟨g, exit', after, ⟨?_, k + m, run'⟩, joined⟩
  cases joined <;> nofun

theorem endsAgain {w w' u : Store} (settled : w.Settled) (settled' : w'.Settled)
    (lasts : w.Lasts w') {f v : Value} (function : Over w.known f) (value : Over w.known v) {m : Nat}
    {exit : Exit Value} (run : callWary m f [v] [] w = (exit, u)) (ended : exit ≠ .exhausted) :
    ∃ h exit' after, (anew f v).Ends w' exit' after ∧
      Joined (.relocating h w.events w'.events) (Value.Alike (.moving h)) (exit, u) (exit', after) :=
  relocated settled.itself settled settled' lasts (Value.alikeItself Exchange.movingNothing f)
    (Value.alikeItself Exchange.movingNothing v) function value run ended

end ParseKit.Script
