import ParseKit.Proofs.Block.Yield
import ParseKit.Proofs.Reading

/-! What parsers of scripts read on texts. A relation decides what an application ends with: it comes
to an end by itself and leaves nothing but names. Main statement: a block reads what the parsers it
yields read, one behind the other. -/
namespace ParseKit.Script

section
variable {α β : Type}

/- Ends with such a value and with nothing changed but the name that is next. -/
def Finishes (x : Run α) (post : α → Prop) : Prop :=
  ∀ w, ∃ a name, x w = (.done a, w.naming name) ∧ post a

namespace Finishes
variable {x : Run α} {post goal : α → Prop} {further : β → Prop}

theorem done {a : α} (held : post a) : Finishes (pure a) post := fun w => ⟨a, w.name, rfl, held⟩

theorem bind {f : α → Run β} (head : Finishes x post) (tail : ∀ a, post a → Finishes (f a) further) :
    Finishes (x >>= f) further := by
  intro w
  obtain ⟨a, name, run, held⟩ := head w
  obtain ⟨b, last, run', held'⟩ := tail a held (w.naming name)
  exact ⟨b, last, (Eff.bindOfDone run).trans run', held'⟩

theorem imp (head : Finishes x post) (gives : ∀ a, post a → goal a) : Finishes x goal := by
  intro w
  obtain ⟨a, name, run, held⟩ := head w
  exact ⟨a, name, run, gives a held⟩

theorem make (g : Grammar) :
    Finishes (Run.make (.parser g)) fun v => ∃ mark, v = .parser mark g :=
  fun w => ⟨_, w.name.next, rfl, .made w.name, rfl⟩

theorem leaving (head : Finishes x post) : Finishes (fromGenerator x) post := by
  intro w
  obtain ⟨a, name, run, held⟩ := head w
  exact ⟨a, name, leavingDone run, held⟩

end Finishes

def valued (value : α → β) : Outcome Text α → Outcome Value β
  | .failure => .failure
  | .success v rest => .success (value v) (.str rest)

def Finds (value : α → β) (reading : α → Text → Prop) (x : Run (Outcome Value β)) : Prop :=
  Decides reading fun o => Finishes x (· = valued value o)

end

namespace Finds
variable {α β γ δ : Type} {value : α → β} {reading reading' : α → Text → Prop}

theorem ofReads {q : Parser Text Store α} {text : Text} (reads : Reads (q text) reading)
    (value : α → Value) (others : Parser Value Store Value) :
    Finds value reading (Script.reading q value others (.str text)) :=
  reads.imp fun o same => by
    simp only [Script.reading, same]
    cases o with
    | failure => exact .done rfl
    | success v rest => exact .done rfl

theorem bind {p : Parser Value Store β} {f : β → Parser Value Store δ} {text : Text}
    {next : α → Text → γ → Text → Prop} {value' : γ → δ} (head : Finds value reading (p (.str text)))
    (tail : ∀ v mid, reading v mid → Finds value' (next v mid) (f (value v) (.str mid))) :
    Finds value' (fun u rest => ∃ v mid, reading v mid ∧ next v mid u rest)
      (p.bind f (.str text)) := by
  refine Decides.bind head (fun same => ?_) fun v mid held same => (tail v mid held).imp ?_
  · exact same.bind fun o equal => equal ▸ .done rfl
  · exact fun o further => same.bind fun o' equal => equal ▸ further

theorem ret (v : α) (text : Text) :
    Finds value (fun u rest => u = v ∧ rest = text) (Parser.ret (value v) (.str text)) :=
  .fits v text (.done rfl) fun _ _ => .rfl

theorem alt {p q : Parser Value Store β} {text : Text} {second : α → Text → Prop}
    (left : Finds value reading (p (.str text))) (right : Finds value second (q (.str text))) :
    Finds value (fun u rest => reading u rest ∨ (∀ v more, ¬ reading v more) ∧ second u rest)
      (p.alt q (.str text)) := by
  refine Decides.alt left (fun v rest same => ?_) fun same => right.imp fun o further => ?_
  · refine same.bind fun o equal => ?_
    subst equal
    exact .done rfl
  · exact same.bind fun o equal => equal ▸ further

theorem mapM {p : Parser Value Store β} {f : β → Run δ} {text : Text} {value' : α → δ}
    (head : Finds value reading (p (.str text)))
    (gives : ∀ v, Finishes (f (value v)) (· = value' v)) :
    Finds value' reading (p.mapM f (.str text)) :=
  Decides.imp head fun o same => same.bind fun o' equal => by
    subst equal
    cases o with
    | failure => exact .done rfl
    | success v rest => exact (gives v).bind fun w equal => equal ▸ .done rfl

theorem repeated {each : Text → α → Text → Prop} {p : Parser Value Store β} {size : Nat}
    (finds : ∀ text, text.length ≤ size → Finds value (each text) (p (.str text)))
    (shrinks : ∀ {text v rest}, each text v rest → rest.length < text.length) {limit : Nat}
    {text : Text} (small : text.length ≤ limit) (within : text.length ≤ size) (least : Nat) :
    Finds (List.map value) (fun vs rest => Many each text vs rest ∧ least ≤ vs.length)
      (Parser.repeated limit least p (.str text)) := by
  let loop (limit : Nat) (seen : List α) (text : Text) (r : List α × Text) : Prop :=
    Finishes (Parser.repeatFrom p limit (seen.map value) (.str text))
      (· = (r.1.map value, .str r.2))
  have stop (limit : Nat) (seen : List α) (text : Text)
      (same : Finishes (p (.str text)) (· = .failure)) : loop limit seen text (seen.reverse, text) := by
    change Finishes _ _
    unfold Parser.repeatFrom
    refine same.bind fun o equal => equal ▸ .done ?_
    rw [List.map_reverse]
  have next (limit : Nat) (seen : List α) (text : Text) (v : α) (mid : Text) (r : List α × Text)
      (same : Finishes (p (.str text)) (· = .success (value v) (.str mid)))
      (further : loop limit (v :: seen) mid r) : loop (limit + 1) seen text r := by
    change Finishes _ _
    unfold Parser.repeatFrom
    exact same.bind fun o equal => equal ▸ further
  obtain ⟨vs, rest, same, only⟩ := manyDecides shrinks loop finds stop next small within []
  refine enoughDecides only (same.bind fun r equal => ?_)
  subst equal
  simp only [List.length_map, List.reverse_nil, List.nil_append]
  split
  · exact .done rfl
  · exact .done rfl

end Finds

theorem decidesAll {ι α : Type} {reading : α → Text → Prop} (i : ι)
    {ends : ι → Outcome Text α → Prop} (each : ∀ i, Decides reading (ends i)) :
    Decides reading fun o => ∀ i, ends i o := by
  cases each i with
  | fits v rest same only =>
    refine .fits v rest (fun j => ?_) only
    cases each j with
    | fails same none => exact absurd ((only v rest).mpr ⟨rfl, rfl⟩) (none v rest)
    | fits u more same' only' =>
      obtain ⟨rfl, rfl⟩ := (only' v rest).mp ((only v rest).mpr ⟨rfl, rfl⟩)
      exact same'
  | fails same none =>
    refine .fails (fun j => ?_) none
    cases each j with
    | fails same' _ => exact same'
    | fits u more same' only' => exact absurd ((only' u more).mpr ⟨rfl, rfl⟩) (none u more)

/- A parser that reads this on every text, given some more steps than characters. -/
def ReadsWithin {α : Type} (steps : Nat) (p : Value) (value : α → Value)
    (reading : Text → α → Text → Prop) : Prop :=
  ∀ text limit, text.length + steps ≤ limit → Decides (reading text) fun o =>
    Finishes (apply limit p (.str text)) (· = .ofOutcome (valued value o))

namespace ReadsWithin
variable {α : Type} {steps : Nat} {p : Value} {value : α → Value}
  {reading : Text → α → Text → Prop} {limit : Nat} {text : Text}

theorem later {more : Nat} (reads : ReadsWithin steps p value reading) (le : steps ≤ more) :
    ReadsWithin more p value reading := fun text limit ample => reads text limit (by omega)

theorem viewed (reads : ReadsWithin steps p value reading) (ample : text.length + steps ≤ limit)
    (view : Value → Except Fault (Outcome Value Value))
    (same : ∀ o : Outcome Value Value, view (.ofOutcome o) = .ok o) :
    Finds value (reading text) (readBy (apply limit) view p (.str text)) :=
  (reads text limit ample).imp fun o ends => ends.bind fun v equal => by
    rw [equal, same]
    exact .done rfl

theorem read (reads : ReadsWithin steps p value reading) (ample : text.length + steps ≤ limit) :
    Finds value (reading text) (Script.read (apply limit) p (.str text)) :=
  reads.viewed ample _ fun o => by cases o <;> rfl

theorem readRest (reads : ReadsWithin steps p value reading) (ample : text.length + steps ≤ limit) :
    Finds value (reading text) (Script.readRest (apply limit) p (.str text)) :=
  reads.viewed ample _ fun o => by cases o <;> rfl

theorem readParts (reads : ReadsWithin steps p value reading) (ample : text.length + steps ≤ limit) :
    Finds value (reading text) (Script.readParts (apply limit) p (.str text)) :=
  reads.viewed ample _ fun o => by cases o <;> rfl

theorem ofGiven {mark : Mark} {g : Grammar} {q : Nat → Parser Value Store Value}
    (gives : ∀ limit, g.applyWith (apply limit) (call limit) limit = give (q limit))
    (finds : ∀ text limit, text.length + steps ≤ limit →
      Finds value (reading text) (q limit (.str text))) :
    ReadsWithin (steps + 1) (.parser mark g) value reading := by
  intro text limit ample
  obtain ⟨limit, rfl⟩ := Nat.exists_eq_add_of_le' (Nat.le_trans (Nat.le_add_left ..) ample)
  refine (finds text (limit + steps) (by omega)).imp fun o ends => ?_
  change Finishes (g.applyWith (apply (limit + steps)) (call (limit + steps)) (limit + steps) _) _
  rw [gives]
  exact ends.bind fun v equal => equal ▸ .done rfl

end ReadsWithin

def blockFrom (limit rounds : Nat) (env : Env) (body : List Stmt) : Parser Value Store Value :=
  drive (eval limit) (readParts (apply limit)) rounds env [.statements body]

section
variable {α β : Type} {limit n : Nat} {env : Env} {e : Expr} {body : List Stmt} {text : Text}
  {value : α → Value} {value' : β → Value}

section
variable (bare : [Frame.statements body].all Frame.unprotected = true)
include bare

theorem blockReads {steps : Nat} {reading : Text → α → Text → Prop} {into : Option String}
    {next : α → Text → β → Text → Prop}
    (evaluated : Finishes (eval limit env e) fun v =>
      v.isCallable = true ∧ ReadsWithin steps v value reading)
    (ample : text.length + steps ≤ limit)
    (tail : ∀ a mid, reading text a mid → Finds value' (next a mid)
      (blockFrom limit (n + 1) (env.receive into (value a)) body (.str mid))) :
    Finds value' (fun u rest => ∃ a mid, reading text a mid ∧ next a mid u rest)
      (blockFrom limit (n + 2) env (.yield e into :: body) (.str text)) := by
  obtain ⟨v₀, -, -, some⟩ := evaluated Store.empty
  have head := decidesAll
    (⟨v₀, some⟩ : {v : Value // v.isCallable = true ∧ ReadsWithin steps v value reading})
    fun v => v.2.2.readParts ample
  have paused : Finishes (fromGenerator (advance (eval limit) (n + 1) env
      [.statements (.yield e into :: body)])) fun p =>
        ∃ v, (v.isCallable = true ∧ ReadsWithin steps v value reading) ∧
          p = .yielded v into ⟨env, [.statements body]⟩ := by
    unfold advance
    rw [progressYield bare, bind_assoc]
    exact (evaluated.bind fun v held => .done ⟨v, held, rfl⟩).leaving
  refine Decides.bind head (fun same => ?_) fun a mid held same => (tail a mid held).imp ?_
  · refine paused.bind fun p => ?_
    rintro ⟨v, held, rfl⟩
    simp only [resume, held.1, if_true]
    refine (same ⟨v, held⟩).bind fun o equal => ?_
    subst equal
    have left : leaveThen (eval limit) ⟨env, [.statements body]⟩ (pure .failure) =
        (pure .failure : Run (Outcome Value Value)) := leaveThenUnprotected bare _
    simp only [valued, left]
    exact .done rfl
  · refine fun o further => paused.bind fun p => ?_
    rintro ⟨v, held, rfl⟩
    simp only [resume, held.1, if_true]
    exact (same ⟨v, held⟩).bind fun o equal => equal ▸ further

theorem blockReturns {a : α} (evaluated : Finishes (eval limit env e) (· = value a)) :
    Finds value (fun u rest => u = a ∧ rest = text)
      (blockFrom limit (n + 2) env (.ret e :: body) (.str text)) := by
  have paused : Finishes (fromGenerator (advance (eval limit) (n + 1) env
      [.statements (.ret e :: body)])) (· = .returned (value a)) := by
    unfold advance
    rw [progressReturn bare, bind_assoc]
    exact (evaluated.bind fun v equal => equal ▸ .done rfl).leaving
  exact .fits a text (paused.bind fun p equal => equal ▸ .done rfl) fun _ _ => .rfl

end

theorem blockWithin {steps : Nat} (rounds : Nat) {reading : Text → α → Text → Prop} (mark : Mark)
    (finds : ∀ text n, text.length + steps ≤ n + rounds → Finds value (reading text)
      (blockFrom (n + rounds) (n + rounds) env body (.str text))) (enough : rounds ≤ steps) :
    ReadsWithin (steps + 1) (.parser mark (.block env body)) value reading := by
  refine .ofGiven (fun _ => rfl) fun text limit ample => ?_
  obtain ⟨n, rfl⟩ : ∃ n, limit = n + rounds := ⟨limit - rounds, by omega⟩
  exact finds text n ample

end
end ParseKit.Script
