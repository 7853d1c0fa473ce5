import ParseKit.Proofs.Exchange.Seen
import ParseKit.Proofs.Successes

/-! What counts of a run. Two runs are alike if they end with results that count for the same, in
stores that count for the same; names may be what does not count. What neither reads nor changes the
store, and what is made of such parsers, is applied alike wherever it is applied. -/
namespace ParseKit.Script

/- What counts of a store, and of a value that a parser gives. Events and failures always do. -/
structure Sameness where
  same : Store → Store → Prop
  like : Value → Value → Prop
  stores : Equivalence same
  values : Equivalence like
  events : ∀ {w v}, same w v → v.events = w.events
  truth : ∀ {r s}, like r s → r.truth = s.truth

namespace Sameness

def all : Sameness where
  same := Eq
  like := Eq
  stores := eq_equivalence
  values := eq_equivalence
  events same := congrArg Store.events same.symm
  truth := congrArg Value.truth

/- All counts but names, those that are given and those that parsers, functions and NaNs have. -/
def butNames : Sameness where
  same w v := v.cells = w.cells ∧ v.events = w.events
  like r s := r.seen = s.seen
  stores := ⟨fun _ => ⟨rfl, rfl⟩, fun h => ⟨h.1.symm, h.2.symm⟩,
    fun h h' => ⟨h'.1.trans h.1, h'.2.trans h.2⟩⟩
  values := ⟨fun _ => rfl, Eq.symm, Eq.trans⟩
  events := And.right
  truth := Value.sameOfSeen Value.truthSeen

def butNext : Sameness where
  same w v := v.cells = w.cells ∧ v.events = w.events
  like := Eq
  stores := butNames.stores
  values := eq_equivalence
  events := And.right
  truth := congrArg Value.truth

variable (S : Sameness)

inductive Exits : Exit Value → Exit Value → Prop where
  | done {r s : Value} (like : S.like r s) : Exits (.done r) (.done s)
  | raised (fault : Fault) : Exits (.raised fault) (.raised fault)
  | exhausted : Exits .exhausted .exhausted

def Leads (x : Running Value) (w : Store) (y : Running Value) (v : Store) : Prop :=
  ∀ exit w', x.Ends w exit w' → ∃ exit' v', y.Ends v exit' v' ∧ S.Exits exit exit' ∧ S.same w' v'

structure Alike (x : Running Value) (w : Store) (y : Running Value) (v : Store) : Prop where
  there : S.Leads x w y v
  back : S.Leads y v x w

section
variable {S} {x y z : Running Value} {w v u : Store} {f g : Value → Running Value}

theorem Exits.refl : (exit : Exit Value) → S.Exits exit exit
  | .done r => .done (S.values.refl r)
  | .raised fault => .raised fault
  | .exhausted => .exhausted

theorem Exits.trans {first second third : Exit Value} (exits : S.Exits first second)
    (exits' : S.Exits second third) : S.Exits first third := by
  cases exits with
  | done like =>
    cases exits' with
    | done like' => exact .done (S.values.trans like like')
  | raised fault => exact exits'
  | exhausted => exact exits'

theorem Leads.ofEnds (ends : ∀ exit w', x.Ends w exit w' → y.Ends v exit w') : S.Leads x w y v :=
  fun exit w' ended => ⟨exit, w', ends exit w' ended, .refl exit, S.stores.refl w'⟩

theorem Leads.trans (first : S.Leads x w y v) (second : S.Leads y v z u) : S.Leads x w z u := by
  intro exit w' ends
  obtain ⟨exit', v', ends, exits, same⟩ := first exit w' ends
  obtain ⟨last, u', ends, exits', same'⟩ := second exit' v' ends
  exact ⟨last, u', ends, exits.trans exits', S.stores.trans same same'⟩

theorem Leads.bind (head : S.Leads x w y v)
    (tail : ∀ r s u u', S.like r s → S.same u u' → x.Ends w (.done r) u → y.Ends v (.done s) u' →
      S.Leads (f r) u (g s) u') : S.Leads (x.bind f) w (y.bind g) v := by
  intro exit w' ends
  rcases Running.endsBind.mp ends with ⟨r, u, first, last⟩ | ⟨fault, raised, rfl⟩
  · obtain ⟨_, u', first', like, same⟩ := head _ _ first
    cases like with
    | done like =>
      obtain ⟨exit', v', last', exits, same'⟩ := tail r _ u u' like same first first' exit w' last
      exact ⟨exit', v', Running.endsThen first' last', exits, same'⟩
  · obtain ⟨_, v', raised', fault, same⟩ := head _ _ raised
    cases fault
    exact ⟨_, v', Running.endsBind.mpr (.inr ⟨_, raised', rfl⟩), .raised _, same⟩

namespace Alike

theorem ret {r s : Value} (like : S.like r s) (same : S.same w v) :
    S.Alike (.ret r) w (.ret s) v where
  there exit w' ends := by
    obtain ⟨rfl, rfl⟩ := Running.endsOnce Running.endsRet ends
    exact ⟨.done s, v, Running.endsRet, .done like, same⟩
  back exit v' ends := by
    obtain ⟨rfl, rfl⟩ := Running.endsOnce Running.endsRet ends
    exact ⟨.done r, w, Running.endsRet, .done (S.values.symm like), S.stores.symm same⟩

theorem symm (alike : S.Alike x w y v) : S.Alike y v x w := ⟨alike.back, alike.there⟩

theorem trans (first : S.Alike x w y v) (second : S.Alike y v z u) : S.Alike x w z u :=
  ⟨first.there.trans second.there, second.back.trans first.back⟩

theorem ofAgree (agree : Agree x y) (w : Store) : S.Alike x w y w :=
  ⟨.ofEnds fun exit w' => (agree w exit w').mp, .ofEnds fun exit w' => (agree w exit w').mpr⟩

theorem bind (head : S.Alike x w y v)
    (tail : ∀ r s u u', S.like r s → S.same u u' → x.Ends w (.done r) u → y.Ends v (.done s) u' →
      S.Alike (f r) u (g s) u') : S.Alike (x.bind f) w (y.bind g) v where
  there := head.there.bind fun r s u u' like same left right =>
    (tail r s u u' like same left right).there
  back := head.back.bind fun s r u' u like same right left =>
    (tail r s u u' (S.values.symm like) (S.stores.symm same) left right).back

theorem behind {α : Type} {x : Running α} {a : α} (ended : x.Ends w (.done a) u)
    (f : α → Running Value) : S.Alike (x.bind f) w (f a) u where
  there := .ofEnds fun exit w' ends => by
    rcases Running.endsBind.mp ends with ⟨b, v, head, tail⟩ | ⟨fault, raised, -⟩
    · obtain ⟨same, rfl⟩ := Running.endsOnce head ended
      cases same
      exact tail
    · cases (Running.endsOnce raised ended).1
  back := .ofEnds fun _ _ last => Running.endsThen ended last

theorem tail (x : Running Value) (w : Store)
    (alike : ∀ r u, x.Ends w (.done r) u → S.Alike (f r) u (g r) u) :
    S.Alike (x.bind f) w (x.bind g) w :=
  (ofAgree (.refl x) w).bind fun r _ u _ _ _ left right => by
    obtain ⟨same, rfl⟩ := Running.endsOnce left right
    cases same
    exact alike r u left

end Alike
end
end Sameness

namespace Calling
variable (c : Calling) (S : Sameness)

def Used (q q' : Value) : Prop :=
  ∀ y w v, S.same w v → S.Alike (c.called q y) w (c.called q' y) v

/- Of this value the function always gives something that is applied as what stands here, and it does
nothing that counts. -/
def Silent (f v q : Value) : Prop :=
  ∀ w, ∃ q' w', (c.called f v).Ends w (.done q') w' ∧ S.same w w' ∧ c.Used S q' q

end Calling

def Plain {α : Type} (x : Run α) : Prop := ∃ exit, ∀ w, x w = (exit, w)

namespace Plain
variable {α β : Type}

theorem done (a : α) : Plain (pure a) := ⟨.done a, fun _ => rfl⟩

theorem bind {x : Run α} {f : α → Run β} (head : Plain x) (tail : ∀ a, Plain (f a)) :
    Plain (x >>= f) := by
  obtain ⟨exit, run⟩ := head
  cases exit with
  | done a =>
    obtain ⟨exit, last⟩ := tail a
    exact ⟨exit, fun w => (Eff.bindOfDone (run w)).trans (last w)⟩
  | raised fault => exact ⟨.raised fault, fun w => Eff.bindOfRaised (run w)⟩
  | exhausted => exact ⟨.exhausted, fun w => Eff.bindOfExhausted (run w)⟩

theorem alike {S : Sameness} {x : Run Value} (plain : Plain x) {w v : Store} (same : S.same w v) :
    S.Alike (.always x) w (.always x) v := by
  obtain ⟨exit, run⟩ := plain
  have leads {w v : Store} (same : S.same w v) : S.Leads (.always x) w (.always x) v := by
    rintro exit' w' ⟨ended, _, ends⟩
    obtain ⟨rfl, rfl⟩ := Prod.mk.inj ((run w).symm.trans ends)
    exact ⟨exit, v, ⟨ended, 0, run v⟩, .refl exit, same⟩
  exact ⟨leads same, leads (S.stores.symm same)⟩

end Plain

namespace Calling
variable {c : Calling} {S : Sameness}

theorem usedPlain {g : Grammar} {x : Value → Run Value}
    (applies : ∀ apply call limit, g.applyWith apply call limit = x) (plain : ∀ y, Plain (x y))
    (i j : Mark) : c.Used S (.parser i g) (.parser j g) := by
  have runs (mark : Mark) (y : Value) : Agree (c.called (.parser mark g) y) (.always (x y)) :=
    .later fun limit => (c.applies limit mark g y).trans (congrFun (applies _ _ _) y)
  intro y w v same
  exact .trans (.ofAgree (runs i y) w)
    (.trans ((plain y).alike same) (Sameness.Alike.ofAgree (runs j y) v).symm)

theorem usedRet {r s : Value} (like : ∀ y, S.like (.success r y) (.success s y)) (i j : Mark) :
    c.Used S (.parser i (.ret r)) (.parser j (.ret s)) := fun y w v same =>
  .trans (.ofAgree (c.retAgrees i r y) w)
    (.trans (.ret (like y) same) (Sameness.Alike.ofAgree (c.retAgrees j s y) v).symm)

end Calling

end ParseKit.Script
