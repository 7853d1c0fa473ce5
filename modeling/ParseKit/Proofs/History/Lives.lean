import ParseKit.Proofs.History.Sights

/-! The lives of shared parsers. A run is written down as what it puts down and what is seen of
shared parsers in between. Until its thunk has returned, each application of a shared parser
evaluates the thunk, and each later one is an application of what the thunk has returned. The lives
of chosen parsers go on in a store each by itself. -/
namespace ParseKit.Script

/- What is seen of one shared parser, from what its cell holds at first to what it holds at last. -/
inductive Life : Option Value → List Moment → Option Value → Prop where
  | rests (held : Option Value) : Life held [] held
  | raises (fault : Fault) {ms : List Moment} {last : Option Value} (later : Life none ms last) :
      Life none (.applied :: .began :: .raised fault :: ms) last
  | returns (p : Value) {ms : List Moment} {last : Option Value} (later : Life (some p) ms last) :
      Life none (.applied :: .began :: .returned p :: .passed p :: ms) last
  | holds {p : Value} {ms : List Moment} {last : Option Value} (later : Life (some p) ms last) :
      Life (some p) (.applied :: .passed p :: ms) last

def Moment.isReturn : Moment → Bool
  | returned _ => true
  | _ => false

namespace Life

theorem append {first mid last : Option Value} {ms more : List Moment}
    (life : Life first ms mid) (later : Life mid more last) : Life first (ms ++ more) last := by
  induction life with
  | rests => exact later
  | raises fault _ ih => exact .raises fault (ih later)
  | returns p _ ih => exact .returns p (ih later)
  | holds _ ih => exact .holds (ih later)

variable {held last : Option Value} {ms : List Moment}

theorem done {p : Value} (life : Life (some p) ms last) :
    last = some p ∧ ms.countP Moment.isReturn = 0 := by
  generalize same : some p = held at life
  induction life with
  | rests => exact ⟨rfl, rfl⟩
  | raises | returns => cases same
  | holds later ih => exact ih same

theorem returnsOnce (life : Life held ms last) : ms.countP Moment.isReturn ≤ 1 := by
  induction life with
  | rests => exact Nat.zero_le 1
  | raises fault later ih => exact ih
  | returns p later ih =>
    have none := later.done.2
    simp [List.countP_cons, Moment.isReturn, none]
  | holds later ih => exact ih

theorem passes (life : Life held ms last) {p : Value} (mem : .passed p ∈ ms) : last = some p := by
  induction life with
  | rests => cases mem
  | raises fault later ih => exact ih (by simpa using mem)
  | returns q later ih =>
    simp only [List.mem_cons, reduceCtorEq, false_or, Moment.passed.injEq] at mem
    rcases mem with rfl | mem
    · exact later.done.1
    · exact ih mem
  | holds later ih =>
    simp only [List.mem_cons, reduceCtorEq, false_or, Moment.passed.injEq] at mem
    rcases mem with rfl | mem
    · exact later.done.1
    · exact ih mem

end Life

inductive Entry where
  | event (e : Event)
  | sight (s : Sight)

def told (tell : Teller) (entries : List Entry) : List Event :=
  entries.flatMap fun
    | .event e => [e]
    | .sight s => tell s

def momentsOf (l : Lazy) (entries : List Entry) : List Moment :=
  entries.filterMap fun
    | .event _ => none
    | .sight s => if s.of = l then some s.moment else none

section
variable (tell : Teller) (l : Lazy) (entries more : List Entry)

theorem toldAppend : told tell (entries ++ more) = told tell entries ++ told tell more :=
  List.flatMap_append

theorem toldEvents (events : List Event) : told tell (events.map .event) = events := by
  induction events with
  | nil => rfl
  | cons e events ih => exact congrArg (e :: ·) ih

theorem momentsAppend : momentsOf l (entries ++ more) = momentsOf l entries ++ momentsOf l more :=
  List.filterMap_append

theorem momentsEvents (events : List Event) : momentsOf l (events.map .event) = [] := by
  induction events with
  | nil => rfl
  | cons e events ih => exact ih

theorem momentsSights (k : Lazy) (ms : List Moment) :
    momentsOf l (ms.map fun m => .sight ⟨k, m⟩) = if k = l then ms else [] := by
  split
  · rename_i same
    subst same
    simp [momentsOf, List.filterMap_map]
  · rename_i other
    simp [momentsOf, List.filterMap_map, other]

end

namespace Store
variable (w : Store)

theorem madeAdded (c : Cell) (id : Name) : (w.addCell c).made id =
    w.made id + if c.name = id ∧ c.built = none then 1 else 0 := by
  simp [made, addCell, List.countP_append, List.countP_singleton]

theorem heldNow (id : Name) : w.held (w.lazy id) = (w.cell? id).bind Cell.built := if_pos rfl

theorem heldFilled {l : Lazy} (number : w.made l.name = l.number) (tag : Option Text) (body : Expr)
    (env : Env) (p : Value) : (w.addCell ⟨l.name, tag, body, env, some p⟩).held l = some p := by
  simp [held, madeAdded, cellAdded, number]

end Store

def Lives (start : Store) (only : Name → Bool) (entries : List Entry) (w : Store) : Prop :=
  ∀ l, only l.name = true → ∃ last, Life (start.held l) (momentsOf l entries) last ∧
    (w.made l.name ≤ l.number → w.held l = last)

namespace Lives
variable {start w w' : Store} {only : Name → Bool} {entries : List Entry}

theorem begin (start : Store) (only : Name → Bool) : Lives start only [] start :=
  fun _ _ => ⟨_, .rests _, fun _ => rfl⟩

theorem further (lives : Lives start only entries w) {more : List Entry}
    (each : ∀ l, only l.name = true → ∀ last, (w.made l.name ≤ l.number → w.held l = last) →
      ∃ last', Life last (momentsOf l more) last' ∧
        (w'.made l.name ≤ l.number → w'.held l = last')) :
    Lives start only (entries ++ more) w' := by
  intro l chosen
  obtain ⟨last, life, now⟩ := lives l chosen
  obtain ⟨last', later, still⟩ := each l chosen last now
  exact ⟨last', momentsAppend l entries more ▸ life.append later, still⟩

theorem stays (lives : Lives start only entries w) {more : List Entry}
    (unseen : ∀ l, only l.name = true → momentsOf l more = [])
    (made : ∀ id, only id = true → w'.made id = w.made id)
    (held : ∀ l, only l.name = true → w'.held l = w.held l) :
    Lives start only (entries ++ more) w' := by
  refine lives.further fun l chosen last now => ⟨last, ?_, fun there => ?_⟩
  · rw [unseen l chosen]
    exact .rests last
  · rw [made _ chosen] at there
    exact (held l chosen).trans (now there)

theorem event (lives : Lives start only entries w) (e : Event) :
    Lives start only (entries ++ [.event e]) (w.addEvent e) :=
  lives.stays (fun _ _ => rfl) (fun _ _ => rfl) (fun _ _ => rfl)

theorem sight (lives : Lives start only entries w) {l : Lazy} (other : only l.name = false)
    (m : Moment) (events : List Event) :
    Lives start only (entries ++ [.sight ⟨l, m⟩]) (w.addEvents events) := by
  refine lives.stays (fun k chosen => ?_) (fun _ _ => rfl) (fun _ _ => rfl)
  have different : l ≠ k := by
    rintro rfl
    rw [other] at chosen
    cases chosen
  exact (momentsSights k l [m]).trans (if_neg different)

theorem share (lives : Lives start only entries w) (id : Name) (tag : Option Text) (body : Expr)
    (env : Env) : Lives start only entries (w.addCell ⟨id, tag, body, env, none⟩) := by
  rw [← List.append_nil entries]
  refine lives.further fun l _ last now => ⟨last, .rests last, fun there => ?_⟩
  simp only [Store.madeAdded, and_true] at there
  by_cases same : id = l.name
  · subst same
    simp only [if_true] at there
    rw [← now (by omega)]
    have before : ¬ w.made l.name = l.number := by omega
    simp only [Store.held, if_neg before, Store.cellAdded, if_true, Option.bind_some, ite_self]
  · rw [if_neg same] at there
    rw [← now there]
    simp only [Store.held, Store.madeAdded, Store.cellAdded, same, false_and, if_false,
      Nat.add_zero]

theorem fill (lives : Lives start only entries w) {id : Name} (other : only id = false)
    (tag : Option Text) (body : Expr) (env : Env) (p : Value) :
    Lives start only entries (w.addCell ⟨id, tag, body, env, some p⟩) := by
  rw [← List.append_nil entries]
  have made (k : Name) : (w.addCell ⟨id, tag, body, env, some p⟩).made k = w.made k := by
    simp [Store.madeAdded]
  refine lives.stays (fun _ _ => rfl) (fun k _ => made k) fun k chosen => ?_
  have different : id ≠ k.name := by
    rintro rfl
    rw [other] at chosen
    cases chosen
  simp only [Store.held, made, Store.cellAdded, if_neg different]

theorem goOn (lives : Lives start only entries w) {id : Name} {ms : List Moment}
    {held : Option Value}
    (life : Life (w.held (w.lazy id)) ms held) (made : ∀ k, w'.made k = w.made k)
    (now : w'.held (w.lazy id) = held) (cell : ∀ k, k ≠ id → w'.cell? k = w.cell? k) :
    Lives start only (entries ++ ms.map fun m => .sight ⟨w.lazy id, m⟩) w' := by
  refine lives.further fun l _ last before => ?_
  rw [momentsSights]
  split
  · rename_i same
    subst same
    refine ⟨held, ?_, fun _ => now⟩
    rw [← before (Nat.le_refl _)]
    exact life
  · rename_i different
    refine ⟨last, .rests last, fun there => ?_⟩
    rw [made] at there
    rw [← before there]
    by_cases same : l.name = id
    · have later : ¬ w.made l.name = l.number := by
        intro number
        apply different
        obtain ⟨name, number'⟩ := l
        simp_all [Store.lazy]
      simp only [Store.held, made, if_neg later]
    · simp only [Store.held, made, cell _ same]

theorem goOnAround {before : List Entry} {events : List Event}
    (lives : Lives start only (before ++ events.map .event) w) {id : Name} {ms more : List Moment}
    {held : Option Value} (life : Life (w.held (w.lazy id)) (ms ++ more) held)
    (made : ∀ k, w'.made k = w.made k) (now : w'.held (w.lazy id) = held)
    (cell : ∀ k, k ≠ id → w'.cell? k = w.cell? k) :
    Lives start only (before ++ (ms.map (fun m => .sight ⟨w.lazy id, m⟩) ++ events.map .event ++
      more.map fun m => .sight ⟨w.lazy id, m⟩)) w' := by
  intro l chosen
  obtain ⟨last, lived, there⟩ := lives.goOn life made now cell l chosen
  refine ⟨last, ?_, there⟩
  simp only [momentsAppend, momentsEvents, momentsSights, List.append_nil] at lived ⊢
  split at lived
  · rename_i same
    simpa [same] using lived
  · rename_i different
    simpa [different] using lived

end Lives

end ParseKit.Script
