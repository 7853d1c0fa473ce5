import ParseKit.Proofs.Suffix

/-! Parses of a whole input beside the parser itself and beside the parser with the end of the input
behind it. Main statement: a parse gives a value where the parser leaves nothing, says what it refuses
and records it where the parser fails or leaves something, and does as the parser does everywhere
else; these cases exclude each other, and there are no others. -/
namespace ParseKit.Script

inductive TextAnswer : Value → Prop where
  | failure : TextAnswer .failure
  | success (a : Value) (rest : Text) : TextAnswer (.success a (.str rest))

theorem textAnswer {limit : Nat} {p r : Value} {text : Text} {w v : Store}
    (only : OnlyParsers limit p (.str text) w)
    (run : apply limit p (.str text) w = (.done r, v)) : TextAnswer r := by
  have inside := applyParserLeaves limit p (.str text) w r v (only.trans run)
  cases r with
  | failure => exact .failure
  | success a rest =>
    obtain ⟨left, rfl, -⟩ := inside text rfl
    exact .success a left
  | _ => exact inside.elim

def refusalEvent (source text : Text) : Option Text → Event
  | none => .record (.failed source text.quoted)
  | some rest => .record (.stopped source text.quoted rest.quoted)

inductive Split (source text : Text) :
    Exit Value × Store → Exit (Except (Refusal Value) Value) × Store → Exit Value × Store → Prop where
  | value (a : Value) (v : Store) : Split source text (.done (.success a (.str [])), v)
      (.done (.ok a), v) (.done (.success a (.str [])), v)
  | mismatch (v : Store) : Split source text (.done .failure, v)
      (.done (.error (.mismatch (.str text) source)), v.addEvent (refusalEvent source text none))
      (.done .failure, v)
  | leftover (a : Value) {rest : Text} (more : rest ≠ []) (v : Store) :
      Split source text (.done (.success a (.str rest)), v)
        (.done (.error (.leftover (.str text) (.str rest) source)),
          v.addEvent (refusalEvent source text (some rest)))
        (.done .failure, v)
  | raised (fault : Fault) (v : Store) :
      Split source text (.raised fault, v) (.raised fault, v) (.raised fault, v)
  | exhausted (v : Store) : Split source text (.exhausted, v) (.exhausted, v) (.exhausted, v)

def keepingLeft (q : Parser Value Store Value) : Outcome Value Value → Run Value
  | .failure => pure .failure
  | .success a rest => do
    match ← q rest with
    | .failure => pure .failure
    | .success _ left => pure (.success a left)

theorem applyKeepLeft (limit : Nat) (mark : Mark) (p q x : Value) :
    apply (limit + 1) (.parser mark (.keepLeft p q)) x =
      read (apply limit) p x >>= keepingLeft (readWith (apply limit) "map" q) := by
  refine (Eff.bindAssoc (read (apply limit) p x) _ _).trans (bind_congr fun o => ?_)
  cases o with
  | failure => rfl
  | success a rest =>
    exact (Parser.mapBind _ _ rest _).trans (bind_congr fun o => by cases o <;> rfl)

theorem runSplits {limit : Nat} {p : Value} {text : Text} {w : Store}
    (only : OnlyParsers limit p (.str text) w) (source : Text) (mark : Mark) :
    Split source text (apply limit p (.str text) w) (whole limit p source (.str text) w)
      (apply (limit + 1) (.parser mark (.keepLeft p Atom.eof.value)) (.str text) w) := by
  rw [applyKeepLeft]
  rcases run : apply limit p (.str text) w with ⟨r | fault | _, v⟩
  · have rest : readRest (apply limit) p (.str text) w = Eff.ofExcept (r.outcome "remaining") v :=
      Eff.bindOfDone run
    have value : read (apply limit) p (.str text) w = Eff.ofExcept (r.outcome "value") v :=
      Eff.bindOfDone run
    cases limit with
    | zero => cases run
    | succ limit =>
      cases textAnswer only run with
      | failure =>
        have all : whole (limit + 1) p source (.str text) w = (.done _, _) := Eff.bindOfDone rest
        rw [all, Eff.bindOfDone value]
        exact .mismatch v
      | success a left =>
        rw [Eff.bindOfDone value]
        cases left with
        | nil =>
          have all : whole (limit + 1) p source (.str text) w = (.done _, _) := Eff.bindOfDone rest
          rw [all]
          exact .value a v
        | cons c left =>
          have all : whole (limit + 1) p source (.str text) w = (.done _, _) := Eff.bindOfDone rest
          rw [all]
          exact .leftover a (List.cons_ne_nil c left) v
  · have rest : readRest (apply limit) p (.str text) w = (.raised fault, v) := Eff.bindOfRaised run
    have value : read (apply limit) p (.str text) w = (.raised fault, v) := Eff.bindOfRaised run
    have all : whole limit p source (.str text) w = (.raised fault, v) := Eff.bindOfRaised rest
    rw [all, Eff.bindOfRaised value]
    exact .raised fault v
  · have rest : readRest (apply limit) p (.str text) w = (.exhausted, v) := Eff.bindOfExhausted run
    have value : read (apply limit) p (.str text) w = (.exhausted, v) := Eff.bindOfExhausted run
    have all : whole limit p source (.str text) w = (.exhausted, v) := Eff.bindOfExhausted rest
    rw [all, Eff.bindOfExhausted value]
    exact .exhausted v

/- The ways a parse of a whole text can go, each exactly where the parser goes its own way. A refusal
is put down in one record, behind the events of the parser. -/
structure FourWays (source text : Text) (run : Exit Value × Store)
    (all : Exit (Except (Refusal Value) Value) × Store) (ended : Exit Value × Store) : Prop where
  returns : ∀ a v, all = (.done (.ok a), v) ↔ run = (.done (.success a (.str [])), v)
  ends : ∀ a v,
    ended = (.done (.success a (.str [])), v) ↔ run = (.done (.success a (.str [])), v)
  mismatches : ∀ input name v, all = (.done (.error (.mismatch input name)), v) ↔
    input = .str text ∧ name = source ∧
      ∃ u, run = (.done .failure, u) ∧ v = u.addEvent (refusalEvent source text none)
  leaves : ∀ input left name v, all = (.done (.error (.leftover input left name)), v) ↔
    input = .str text ∧ name = source ∧ ∃ a rest u, rest ≠ [] ∧ left = .str rest ∧
      run = (.done (.success a (.str rest)), u) ∧ v = u.addEvent (refusalEvent source text (some rest))
  raises : ∀ fault v, all = (.raised fault, v) ↔ run = (.raised fault, v)
  lasts : ∀ v, all = (.exhausted, v) ↔ run = (.exhausted, v)
  others : ∀ message input v, all ≠ (.done (.error (.incomplete message input)), v)
  refuses : ∀ u, ended = (.done .failure, u) → ∃ refusal v,
    all = (.done (.error refusal), v) ∧ (refusal = .mismatch (.str text) source ∨
      ∃ left, refusal = .leftover (.str text) left source)

section
variable {source text : Text} {run ended : Exit Value × Store}
  {all : Exit (Except (Refusal Value) Value) × Store} (split : Split source text run all ended)
include split

theorem Split.returns (a : Value) (v : Store) :
    all = (.done (.ok a), v) ↔ run = (.done (.success a (.str [])), v) := by
  cases split with
  | leftover b more u => simp [more]
  | _ => simp

theorem Split.ends (a : Value) (v : Store) :
    ended = (.done (.success a (.str [])), v) ↔ run = (.done (.success a (.str [])), v) := by
  cases split with
  | leftover b more u => simp [more]
  | _ => simp

theorem Split.mismatches (input : Value) (name : Text) (v : Store) :
    all = (.done (.error (.mismatch input name)), v) ↔ input = .str text ∧ name = source ∧
      ∃ u, run = (.done .failure, u) ∧ v = u.addEvent (refusalEvent source text none) := by
  constructor
  · intro same
    cases split <;> cases same
    exact ⟨rfl, rfl, _, rfl, rfl⟩
  · rintro ⟨rfl, rfl, u, same, rfl⟩
    cases split <;> cases same
    rfl

theorem Split.leaves (input left : Value) (name : Text) (v : Store) :
    all = (.done (.error (.leftover input left name)), v) ↔
      input = .str text ∧ name = source ∧ ∃ a rest u, rest ≠ [] ∧ left = .str rest ∧
        run = (.done (.success a (.str rest)), u) ∧
          v = u.addEvent (refusalEvent source text (some rest)) := by
  constructor
  · intro same
    cases split <;> cases same
    exact ⟨rfl, rfl, _, _, _, by assumption, rfl, rfl, rfl⟩
  · rintro ⟨rfl, rfl, a, rest, u, more, rfl, same, rfl⟩
    cases split <;> cases same
    · exact absurd rfl more
    · rfl

theorem Split.refuses (u : Store) (failed : ended = (.done .failure, u)) : ∃ refusal v,
    all = (.done (.error refusal), v) ∧ (refusal = .mismatch (.str text) source ∨
      ∃ left, refusal = .leftover (.str text) left source) := by
  cases split with
  | mismatch => exact ⟨_, _, rfl, .inl rfl⟩
  | leftover => exact ⟨_, _, rfl, .inr ⟨_, rfl⟩⟩
  | _ => cases failed

theorem Split.raises (fault : Fault) (v : Store) :
    all = (.raised fault, v) ↔ run = (.raised fault, v) := by
  cases split <;> simp

theorem Split.lasts (v : Store) : all = (.exhausted, v) ↔ run = (.exhausted, v) := by
  cases split <;> simp

theorem Split.others (message : Text) (input : Value) (v : Store) :
    all ≠ (.done (.error (.incomplete message input)), v) := by
  cases split <;> simp

end

/-- The parse of a whole text goes one of four ways, each of them told by the parser alone. -/
theorem wholeInputSplits {limit : Nat} {p : Value} {text : Text} {w : Store}
    (only : OnlyParsers limit p (.str text) w) (source : Text) (mark : Mark) :
    FourWays source text (apply limit p (.str text) w) (whole limit p source (.str text) w)
      (apply (limit + 1) (.parser mark (.keepLeft p Atom.eof.value)) (.str text) w) := by
  have split := runSplits only source mark
  exact ⟨split.returns, split.ends, split.mismatches, split.leaves, split.raises, split.lasts,
    split.others, split.refuses⟩

def denying : Value :=
  let noted : Value := .parser (.made 0) (.map Atom.item.value (.builtin .log))
  .parser (.made 2) (.keepRight noted (.parser (.made 1) (.ret (.bool false))))

theorem denyingSplits :
    whole 8 denying ['i', 'n'] (.str ['a']) .empty =
      (.done (.ok (.bool false)), ⟨#[], #[.note (.str ['a'])], 0⟩) ∧
    whole 8 denying ['i', 'n'] (.str ['a', 'b']) .empty =
      (.done (.error (.leftover (.str ['a', 'b']) (.str ['b']) ['i', 'n'])),
        ⟨#[], #[.note (.str ['a']), .record (.stopped ['i', 'n'] (Text.quoted ['a', 'b'])
          (Text.quoted ['b']))], 0⟩) := by
  have only : OnlyParsers 8 denying (.str ['a']) .empty := rfl
  have more : OnlyParsers 8 denying (.str ['a', 'b']) .empty := rfl
  exact ⟨((wholeInputSplits only ['i', 'n'] (.made 3)).returns _ _).mpr rfl,
    ((wholeInputSplits more ['i', 'n'] (.made 3)).leaves _ _ _ _).mpr
      ⟨rfl, rfl, _, _, _, List.cons_ne_nil _ _, rfl, rfl, rfl⟩⟩

end ParseKit.Script
