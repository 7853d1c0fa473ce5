import ParseKit.Proofs.Calling
import ParseKit.Proofs.Exchange.Renaming
import ParseKit.Proofs.Exchange.Telling
import ParseKit.Proofs.History.Stores

/-! Runs in which names differ. Main statement: where a wary run ends, a run of what is the same but for
names ends as well, and what is seen of both is the same. -/
namespace ParseKit.Script

structure SeenSame (p q : Exit Value × Store) : Prop where
  exit : Exit.seen p.1 = Exit.seen q.1
  events : p.2.events.toList.map Event.seen = q.2.events.toList.map Event.seen

def EndSame (x y : Running Value) (w : Store) : Prop :=
  ∃ exit w' exit' w'', x.Ends w exit w' ∧ y.Ends w exit' w'' ∧ SeenSame (exit, w') (exit', w'')

theorem EndSame.symm {x y : Running Value} {w : Store} (same : EndSame x y w) : EndSame y x w := by
  obtain ⟨exit, w', exit', w'', ends, ends', seen⟩ := same
  exact ⟨exit', w'', exit, w', ends', ends, seen.exit.symm, seen.events.symm⟩

/-- Wary calls. They are cut short where a parser is applied to what is no text, and where lists are
compared that both have things in them which equal only themselves. -/
def callWarily : Nat → Caller := callMarked .clear (forceMarked .clear)

namespace Along
variable {α β : Type} {X : Exchange} {K : Accord X} {R : α → β → Prop} {x : Run α} {y z : Running β}

theorem reaches (along : Along K R x y.within) {a s : Store} (agree : K.agree a s)
    (ended : (x a).1 ≠ .exhausted) :
    ∃ exit s', y.Ends s exit s' ∧ Joined K R (x a) (exit, s') := by
  obtain ⟨⟨exit, s'⟩, runs, joined⟩ := along a s agree ended
  obtain ⟨k, run⟩ := runs.exists
  refine ⟨exit, s', ⟨?_, k, run⟩, joined⟩
  rintro rfl
  generalize x a = p at joined
  cases joined

theorem ofReaches (reaches : ∀ a s, K.agree a s → (x a).1 ≠ .exhausted →
    ∃ exit s', y.Ends s exit s' ∧ Joined K R (x a) (exit, s')) : Along K R x y.within := by
  intro a s agree ended
  obtain ⟨exit, s', ⟨finite, k, run⟩, joined⟩ := reaches a s agree ended
  exact ⟨_, Filter.eventually_atTop.mpr ⟨k, fun n le => y.grows.later le run finite⟩, joined⟩

theorem agree (along : Along K R x y.within) (agree : Agree y z) : Along K R x z.within :=
  ofReaches fun _ s alike ended => by
    obtain ⟨exit, s', ends, joined⟩ := along.reaches alike ended
    exact ⟨exit, s', (agree s exit s').mp ends, joined⟩

end Along

theorem calledAlong (m : Nat) {f f' v v' : Value} (function : f.Renamed f') (value : v.Renamed v') :
    Along (Exchange.names.telling rfl) Value.Renamed (callWarily m f [v] [])
      (Calling.script.called f' v').within := by
  intro a s alike ended
  obtain ⟨q, runs, joined⟩ :=
    callAlong rfl (fun _ _ => id) m function (.cons value .nil) .nil a s alike ended
  refine ⟨q, ?_, joined⟩
  rw [← Filter.map_add_atTop_eq_nat m, Filter.eventually_map]
  exact runs

theorem takenAlong (m : Nat) {p p' x x' : Value} (parser : p.Renamed p') (input : x.Renamed x') :
    Along (Exchange.names.telling rfl) (outcomes .names) (read (applyBy (callWarily m)) p x)
      (Calling.script.taken p' x').within :=
  (calledAlong m parser input).bind fun _ _ alike => .ofResult (alike.outcome "value")

def EndsWarily (p : Value) (text : Text) (w : Store) : Prop :=
  ∃ limit, (callWarily limit p [.str text] [] w).1 ≠ .exhausted

theorem Store.Alike.itself {X : Exchange} (itself : X.Reflexive) (w : Store) :
    Store.Alike X w w := by
  refine ⟨rfl, fun id => ?_, ?_⟩
  · cases w.cell? id with
    | none => exact .none
    | some c => exact .some (c.alikeItself itself)
  · induction w.events.toList with
    | nil => exact .nil
    | cons e events ih => exact .both rfl ih

theorem Along.ends {x : Run Value} {y : Running Value} {a s : Store}
    (along : Along (Exchange.names.telling rfl) Value.Renamed x y.within)
    (alike : Store.Alike .names a s)
    (ended : (x a).1 ≠ .exhausted) : ∃ exit s', y.Ends s exit s' ∧ SeenSame (x a) (exit, s') := by
  obtain ⟨exit, s', ends, joined⟩ := along.reaches alike ended
  have told {a s : Store} (agree : Store.Alike .names a s) :=
    toldSeen (fun _ => Exchange.placesAlone) (fun _ => Exchange.placesAlone) agree.events
  refine ⟨exit, s', ends, ?_⟩
  generalize x a = p at joined
  cases joined with
  | done agree alike => exact ⟨congrArg Exit.done alike.seen, told agree⟩
  | raised agree => exact ⟨rfl, told agree⟩

end ParseKit.Script
