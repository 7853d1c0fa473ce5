import ParseKit.Parser.Character
import ParseKit.Parser.Choice
import ParseKit.Parser.Input
import ParseKit.Parser.Separated

/-! Parsers of texts that read exactly a relation: where the relation holds of a value and a
rest, the parser gives these two, and where it holds of none, the parser fails. Such a parser
raises nothing, comes to an end and leaves the store as it was. -/
namespace ParseKit
open ParseKit.Parser

/- The relation says how something ends: with the one value and rest that it holds of, or in failure
as it holds of none. -/
inductive Decides {α : Type} (reading : α → Text → Prop) (ends : Outcome Text α → Prop) : Prop where
  | fits (v : α) (rest : Text) (same : ends (.success v rest))
      (only : ∀ u more, reading u more ↔ u = v ∧ more = rest)
  | fails (same : ends .failure) (none : ∀ v rest, ¬ reading v rest)

namespace Decides
variable {α β : Type} {reading reading' second : α → Text → Prop} {ends ends' : Outcome Text α → Prop}

theorem congr (decides : Decides reading ends)
    (iff : ∀ v rest, reading' v rest ↔ reading v rest) : Decides reading' ends := by
  cases decides with
  | fits v rest same only => exact .fits v rest same fun u more => (iff u more).trans (only u more)
  | fails same none => exact .fails same fun v rest held => none v rest ((iff v rest).mp held)

theorem imp (decides : Decides reading ends) (gives : ∀ o, ends o → ends' o) :
    Decides reading ends' := by
  cases decides with
  | fits v rest same only => exact .fits v rest (gives _ same) only
  | fails same none => exact .fails (gives _ same) none

theorem bind {goal : Outcome Text β → Prop} {next : α → Text → β → Text → Prop}
    (head : Decides reading ends) (stop : ends .failure → goal .failure)
    (tail : ∀ v mid, reading v mid → ends (.success v mid) → Decides (next v mid) goal) :
    Decides (fun u rest => ∃ v mid, reading v mid ∧ next v mid u rest) goal := by
  cases head with
  | fails same none => exact .fails (stop same) fun _ _ ⟨v, mid, held, _⟩ => none v mid held
  | fits v mid same only =>
    have held : reading v mid := (only v mid).mpr ⟨rfl, rfl⟩
    refine (tail v mid held same).congr fun u rest => ⟨fun ⟨a, m, other, further⟩ => ?_,
      fun further => ⟨v, mid, held, further⟩⟩
    obtain ⟨rfl, rfl⟩ := (only a m).mp other
    exact further

theorem alt {goal : Outcome Text α → Prop} (first : Decides reading ends)
    (some : ∀ v rest, ends (.success v rest) → goal (.success v rest))
    (other : ends .failure → Decides second goal) :
    Decides (fun u rest => reading u rest ∨ (∀ v more, ¬ reading v more) ∧ second u rest) goal := by
  cases first with
  | fits v rest same only =>
    have held : reading v rest := (only v rest).mpr ⟨rfl, rfl⟩
    refine .fits v rest (some v rest same) fun u more => ⟨fun either => ?_, fun equal => .inl ?_⟩
    · rcases either with other | ⟨none, _⟩
      · exact (only u more).mp other
      · exact absurd held (none v rest)
    · exact (only u more).mpr equal
  | fails same none =>
    exact (other same).congr fun u more =>
      ⟨fun either => either.elim (absurd · (none u more)) And.right, fun held => .inr ⟨none, held⟩⟩

end Decides

abbrev Reads {ω α : Type} (run : Eff ω (Outcome Text α)) (reading : α → Text → Prop) : Prop :=
  Decides reading (run = pure ·)

namespace Reads
variable {ω α β : Type}

theorem ret (v : α) (text : Text) :
    Reads (Parser.ret v text : Eff ω _) fun u rest => u = v ∧ rest = text :=
  .fits v text rfl fun _ _ => .rfl

theorem fail (text : Text) : Reads (Parser.fail text : Eff ω (Outcome Text α)) fun _ _ => False :=
  .fails rfl fun _ _ => id

theorem bind {p : Parser Text ω α} {f : α → Parser Text ω β} {text : Text}
    {first : α → Text → Prop} {second : α → Text → β → Text → Prop} (head : Reads (p text) first)
    (tail : ∀ v mid, first v mid → Reads (f v mid) (second v mid)) :
    Reads (p.bind f text) fun u rest => ∃ v mid, first v mid ∧ second v mid u rest := by
  unfold Parser.bind
  refine Decides.bind head (fun same => ?_) fun v mid held same => ?_
  · rw [same]
    rfl
  · rw [same]
    exact tail v mid held

theorem alt {a b : Parser Text ω α} {text : Text} {first second : α → Text → Prop}
    (left : Reads (a text) first) (right : Reads (b text) second) :
    Reads (a.alt b text) fun u rest =>
      first u rest ∨ (∀ v more, ¬ first v more) ∧ second u rest := by
  unfold Parser.alt
  refine Decides.alt left (fun v rest same => ?_) fun same => ?_
  · rw [same]
    rfl
  · rw [same]
    exact right

theorem map {p : Parser Text ω α} {text : Text} {reading : α → Text → Prop}
    (reads : Reads (p text) reading) (f : α → β) :
    Reads (p.map f text) fun u rest => ∃ v, reading v rest ∧ u = f v := by
  refine Decides.congr (reads.bind (f := fun v => Parser.ret (f v)) fun v mid _ => .ret (f v) mid) ?_
  exact fun u rest => ⟨fun ⟨v, held, same⟩ => ⟨v, rest, held, same, rfl⟩,
    fun ⟨v, _, held, same, equal⟩ => ⟨v, equal ▸ held, same⟩⟩

theorem sat (test : Char → Bool) (text : Text) :
    Reads (Parser.sat test text : Eff ω _) fun c rest => text = c :: rest ∧ test c = true := by
  cases text with
  | nil => exact .fails rfl fun _ _ ⟨impossible, _⟩ => nomatch impossible
  | cons c rest =>
    change Reads (if test c = true then Parser.ret c rest else Parser.fail rest) _
    by_cases held : test c = true
    · rw [if_pos held]
      refine .fits c rest rfl fun d more => ⟨fun ⟨same, _⟩ => ?_, fun ⟨same, equal⟩ => ?_⟩
      · cases same
        exact ⟨rfl, rfl⟩
      · subst same equal
        exact ⟨rfl, held⟩
    · rw [if_neg held]
      refine .fails rfl fun d more ⟨same, other⟩ => ?_
      cases same
      exact held other

section
variable {run : Eff ω (Outcome Text α)} {reading : α → Text → Prop} (reads : Reads run reading)
include reads

theorem gives (v : α) (rest : Text) (w : ω) :
    run w = (.done (.success v rest), w) ↔ reading v rest := by
  cases reads with
  | fails same none =>
    rw [same]
    exact ⟨nofun, fun held => absurd held (none v rest)⟩
  | fits u more same only =>
    rw [same, only]
    constructor
    · intro run
      cases run
      exact ⟨rfl, rfl⟩
    · intro equal
      obtain ⟨rfl, rfl⟩ := equal
      rfl

end
end Reads

inductive Many {α : Type} (reading : Text → α → Text → Prop) : Text → List α → Text → Prop where
  | done {text} (none : ∀ v rest, ¬ reading text v rest) : Many reading text [] text
  | more {text v mid vs rest} (first : reading text v mid) (tail : Many reading mid vs rest) :
      Many reading text (v :: vs) rest

theorem manyNone {α : Type} {reading : Text → α → Text → Prop} {text : Text}
    (none : ∀ v rest, ¬ reading text v rest) (vs : List α) (rest : Text) :
    Many reading text vs rest ↔ vs = [] ∧ rest = text := by
  constructor
  · intro many
    cases many with
    | done => exact ⟨rfl, rfl⟩
    | more first _ => exact absurd first (none _ _)
  · intro same
    obtain ⟨rfl, rfl⟩ := same
    exact .done none

section
variable {α : Type} {reading : Text → α → Text → Prop}
  (shrinks : ∀ {text v rest}, reading text v rest → rest.length < text.length)
include shrinks

theorem manyDecides (loop : Nat → List α → Text → List α × Text → Prop)
    {ends : Text → Outcome Text α → Prop} {size : Nat}
    (each : ∀ text, text.length ≤ size → Decides (reading text) (ends text))
    (stop : ∀ limit seen text, ends text .failure → loop limit seen text (seen.reverse, text))
    (next : ∀ limit seen text v mid r, ends text (.success v mid) →
      loop limit (v :: seen) mid r → loop (limit + 1) seen text r) {limit : Nat} {text : Text}
    (small : text.length ≤ limit) (within : text.length ≤ size) (seen : List α) :
    ∃ vs rest, loop limit seen text (seen.reverse ++ vs, rest) ∧
      ∀ us more, Many reading text us more ↔ us = vs ∧ more = rest := by
  induction limit generalizing text seen with
  | zero =>
    cases each text within with
    | fits v mid same only =>
      -- The limit is no bound on a text with fewer characters, as each reading takes one at least.
      have shorter := shrinks ((only v mid).mpr ⟨rfl, rfl⟩)
      omega
    | fails same none =>
      exact ⟨[], text, by rw [List.append_nil]; exact stop 0 seen text same, manyNone none⟩
  | succ limit ih =>
    cases each text within with
    | fits v mid same only =>
      have held := (only v mid).mpr ⟨rfl, rfl⟩
      have shorter := shrinks held
      obtain ⟨vs, rest, further, iff⟩ := ih (by omega : mid.length ≤ limit) (by omega) (v :: seen)
      refine ⟨v :: vs, rest, next limit seen text v mid _ same ?_, fun us more => ⟨fun many => ?_,
        fun equal => ?_⟩⟩
      · rwa [List.reverse_cons, List.append_assoc, List.singleton_append] at further
      · cases many with
        | done none => exact absurd held (none _ _)
        | more first tail =>
          obtain ⟨rfl, rfl⟩ := (only _ _).mp first
          obtain ⟨rfl, rfl⟩ := (iff _ _).mp tail
          exact ⟨rfl, rfl⟩
      · obtain ⟨rfl, rfl⟩ := equal
        exact .more held ((iff _ _).mpr ⟨rfl, rfl⟩)
    | fails same none =>
      exact ⟨[], text, by rw [List.append_nil]; exact stop _ seen text same, manyNone none⟩

omit shrinks in
theorem enoughDecides {text : Text} {vs : List α} {rest : Text} {least : Nat}
    {ends : Outcome Text (List α) → Prop}
    (only : ∀ us more, Many reading text us more ↔ us = vs ∧ more = rest)
    (same : ends (if vs.length < least then .failure else .success vs rest)) :
    Decides (fun us more => Many reading text us more ∧ least ≤ us.length) ends := by
  by_cases few : vs.length < least
  · rw [if_pos few] at same
    refine .fails same fun us more ⟨many, enough⟩ => ?_
    obtain ⟨rfl, rfl⟩ := (only us more).mp many
    exact absurd enough (Nat.not_le_of_lt few)
  · rw [if_neg few] at same
    refine .fits vs rest same fun us more => ⟨fun held => (only us more).mp held.1, fun equal => ?_⟩
    have many := (only us more).mpr equal
    obtain ⟨rfl, rfl⟩ := equal
    exact ⟨many, Nat.le_of_not_lt few⟩

theorem repeatedReads {ω : Type} {p : Parser Text ω α} (each : ∀ text, Reads (p text) (reading text))
    {limit : Nat} {text : Text} (small : text.length ≤ limit) (least : Nat) :
    Reads (repeated limit least p text) fun vs rest =>
      Many reading text vs rest ∧ least ≤ vs.length := by
  have stop (limit : Nat) (seen : List α) (text : Text) (same : p text = pure .failure) :
      repeatFrom p limit seen text = pure (seen.reverse, text) := by
    unfold repeatFrom
    rw [same]
    rfl
  obtain ⟨vs, rest, same, only⟩ := manyDecides shrinks
    (fun limit seen text r => repeatFrom p limit seen text = pure r) (fun text _ => each text) stop
    (fun limit seen text v mid r same further => by
      unfold repeatFrom
      rw [same]
      exact further) small (Nat.le_refl _) []
  refine enoughDecides only ?_
  unfold repeated
  rw [same]
  change (if vs.length < least then _ else _) = _
  split <;> rfl

end

def StopsAt (test : Char → Bool) (rest : Text) : Prop :=
  ∀ c more, rest = c :: more → test c = false

structure Span (test : Char → Bool) (text v rest : Text) : Prop where
  joined : text = v ++ rest
  all : ∀ c ∈ v, test c = true
  stops : StopsAt test rest

theorem spanExists (test : Char → Bool) (text : Text) : ∃ v rest, Span test text v rest := by
  induction text with
  | nil => exact ⟨[], [], rfl, nofun, nofun⟩
  | cons c text ih =>
    cases held : test c with
    | true =>
      obtain ⟨v, rest, span⟩ := ih
      exact ⟨c :: v, rest, congrArg _ span.joined, List.forall_mem_cons.mpr ⟨held, span.all⟩,
        span.stops⟩
    | false =>
      refine ⟨[], c :: text, rfl, nofun, fun d more same => ?_⟩
      cases same
      exact held

theorem manySpan {test : Char → Bool} {text v rest : Text} :
    Many (fun text c rest => text = c :: rest ∧ test c = true) text v rest ↔
      Span test text v rest := by
  constructor
  · intro many
    induction many with
    | @done text none =>
      refine ⟨rfl, nofun, fun c more same => ?_⟩
      cases held : test c with
      | false => rfl
      | true => exact absurd ⟨same, held⟩ (none c more)
    | more first tail ih =>
      obtain ⟨rfl, held⟩ := first
      exact ⟨congrArg _ ih.joined, List.forall_mem_cons.mpr ⟨held, ih.all⟩, ih.stops⟩
  · intro span
    obtain ⟨rfl, all, stops⟩ := span
    induction v with
    | nil =>
      refine .done fun c more ⟨same, held⟩ => ?_
      exact Bool.false_ne_true ((stops c more same).symm.trans held)
    | cons c v ih =>
      have parts := List.forall_mem_cons.mp all
      exact .more ⟨rfl, parts.1⟩ (ih parts.2)

section
variable {ω : Type} (test : Char → Bool)

theorem satShrinks {text : Text} {c : Char} {rest : Text} (held : text = c :: rest ∧ test c = true) :
    rest.length < text.length := by
  obtain ⟨rfl, -⟩ := held
  exact Nat.lt_succ_self rest.length

theorem manyReads (text : Text) : Reads (many (sat test) text : Eff ω _) (Span test text) :=
  (repeatedReads (satShrinks test) (.sat test) (Nat.le_refl _) 0).congr fun _ _ =>
    ⟨fun span => ⟨manySpan.mpr span, Nat.zero_le _⟩, fun held => manySpan.mp held.1⟩

theorem many1Reads (text : Text) : Reads (many1 (sat test) text : Eff ω _) fun v rest =>
    Span test text v rest ∧ v ≠ [] :=
  (repeatedReads (satShrinks test) (.sat test) (Nat.le_refl _) 1).congr fun _ _ =>
    and_congr manySpan.symm List.length_pos_iff.symm

end
end ParseKit
