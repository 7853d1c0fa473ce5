import ParseKit.Proofs.Successes

/-! Operands with separators between them. Behind the first operand a list goes on as far as
separators with operands come, and a separator that has no operand behind it is not taken. Main
statement: where links shorten the text and raise nothing there is exactly one such list, which the
parser gives; what may be empty never fails. -/
namespace ParseKit.Script

theorem Agree.behindFirst {α : Type} {x y : Running α}
    (same : ∀ limit, x.within (limit + 1) = y.within (limit + 1)) : Agree x y :=
  let later : Running α :=
    ⟨fun limit => y.within (limit + 1), fun _ _ le => y.grows _ _ (Nat.succ_le_succ le)⟩
  have left : Agree x later := .later same
  have right : Agree y later := .later fun _ => rfl
  left.trans right.symm

namespace Calling
variable (c : Calling)

inductive Linked (p sep x : Value) (w : Store) : Outcome Value Value → Store → Prop where
  | link {a mid v rest : Value} {u w' : Store} (separator : c.Applied sep x w (.success a mid) u)
      (operand : c.Applied p mid u (.success v rest) w') : Linked p sep x w (.success v rest) w'
  | none {w' : Store} (stops : c.Stops p sep x w w') : Linked p sep x w .failure w'

theorem linkedReadBy (p sep : Value) : Trying.ReadBy (c.Linked p sep) (c.further p sep) := by
  intro x w o w' linked
  cases linked with
  | link separator operand => exact Running.endsThen separator.taken operand.taken
  | none stops =>
    cases stops with
    | operator fails => exact Running.endsThen fails.taken Running.endsRet
    | operand separator fails => exact Running.endsThen separator.taken fails.taken

theorem sepByAgrees (m k : Mark) (p sep x : Value) :
    Agree (c.called (.parser m (.sepBy p sep)) x)
      ((c.called (.parser k (.sepBy1 p sep)) x).bind fun r =>
        if r.truth then .ret r else .ret (.success (.list []) x)) := by
  refine .behindFirst fun limit => (c.applies limit m (.sepBy p sep) x).trans ?_
  refine .trans ?_ (congrArg (· >>= _) (c.applies limit k (.sepBy1 p sep) x).symm)
  simp only [Grammar.applyWith, give]
  refine (Parser.mapBind _ _ x _).trans (.trans ?_ (Eff.bindAssoc _ _ _).symm)
  refine (Eff.bindAssoc _ _ _).trans (.trans ?_ (Parser.mapBind _ _ x _).symm)
  exact bind_congr fun o => by cases o <;> rfl

/-- The list of the operands as far as it goes, by itself and where it may be empty. -/
structure GreatestList (p sep x : Value) (w : Store) : Prop where
  succeeds : ∀ m value left w',
    c.Applied (.parser m (.sepBy1 p sep)) x w (.success value left) w' ↔
      ∃ v rest u vs, c.Applied p x w (.success v rest) u ∧
        Greatest (c.Linked p sep) rest u vs left w' ∧ value = .list (v :: vs)
  fails : ∀ m w', c.Applied (.parser m (.sepBy1 p sep)) x w .failure w' ↔ c.Applied p x w .failure w'
  unique : ∀ v rest u, c.Applied p x w (.success v rest) u → ∃ vs left w',
    Greatest (c.Linked p sep) rest u vs left w' ∧ ∀ vs' left' v',
      Greatest (c.Linked p sep) rest u vs' left' v' → vs' = vs ∧ left' = left ∧ v' = w'
  same : ∀ m k v rest u, c.Applied p x w (.success v rest) u → ∀ exit w',
    (c.called (.parser k (.sepBy p sep)) x).Ends w exit w' ↔
      (c.called (.parser m (.sepBy1 p sep)) x).Ends w exit w'
  empty : ∀ k u, c.Applied p x w .failure u →
    c.Applied (.parser k (.sepBy p sep)) x w (.success (.list []) x) u
  neverFails : ∀ k,
    (∃ value left w', c.Applied (.parser k (.sepBy p sep)) x w (.success value left) w') ∧
    ∀ w', ¬ c.Applied (.parser k (.sepBy p sep)) x w .failure w'

section
variable {c} {p x : Value} {i : Mark} {s : Grammar} {w : Store}

theorem separatedList {v rest left : Value} {u w' : Store} {vs : List Value}
    (first : c.Applied p x w (.success v rest) u)
    (greatest : Greatest (c.Linked p (.parser i s)) rest u vs left w') (mark : Mark) :
    c.Applied (.parser mark (.sepBy1 p (.parser i s))) x w (.success (.list (v :: vs)) left) w' := by
  refine (c.separatedUnrolls mark i p x s _ _ _).mpr ⟨vs.length + 1, ?_⟩
  exact Running.endsThen first.taken
    (Running.endsThen (greatest.rounds (c.linkedReadBy p (.parser i s)) []) Running.endsRet)

theorem separatedFails {u : Store} (first : c.Applied p x w .failure u) (mark : Mark) :
    c.Applied (.parser mark (.sepBy1 p (.parser i s))) x w .failure u :=
  (c.separatedUnrolls mark i p x s _ _ _).mpr
    ⟨0, Running.endsThen first.taken Running.endsRet⟩

theorem sepBySome {v rest : Value} {w' : Store} {m : Mark}
    (some : c.Applied (.parser m (.sepBy1 p (.parser i s))) x w (.success v rest) w') (k : Mark) :
    c.Applied (.parser k (.sepBy p (.parser i s))) x w (.success v rest) w' :=
  (c.sepByAgrees k m p (.parser i s) x _ _ _).mpr (Running.endsThen some Running.endsRet)

theorem sepByNone {w' : Store} {m : Mark}
    (none : c.Applied (.parser m (.sepBy1 p (.parser i s))) x w .failure w') (k : Mark) :
    c.Applied (.parser k (.sepBy p (.parser i s))) x w (.success (.list []) x) w' :=
  (c.sepByAgrees k m p (.parser i s) x _ _ _).mpr (Running.endsThen none Running.endsRet)

section
variable (ends : ∃ o u, c.Applied p x w o u)
  (advancing : ∀ v rest u, c.Applied p x w (.success v rest) u →
    Advancing (c.Linked p (.parser i s)) rest u)
include ends advancing

theorem separatedIff (m : Mark) (value left : Value) (w' : Store) :
    c.Applied (.parser m (.sepBy1 p (.parser i s))) x w (.success value left) w' ↔
      ∃ v rest u vs, c.Applied p x w (.success v rest) u ∧
        Greatest (c.Linked p (.parser i s)) rest u vs left w' ∧ value = .list (v :: vs) := by
  constructor
  · intro listed
    obtain ⟨o, u, first⟩ := ends
    cases o with
    | failure => cases (listed.once (separatedFails first m)).1
    | success v rest =>
      obtain ⟨vs, left, w', greatest⟩ := (advancing v rest u first).greatest
      obtain ⟨same, rfl⟩ := listed.once (separatedList first greatest m)
      cases same
      exact ⟨v, rest, u, vs, first, greatest, rfl⟩
  · rintro ⟨v, rest, u, vs, first, greatest, rfl⟩
    exact separatedList first greatest m

theorem separatedFailsIff (m : Mark) (w' : Store) :
    c.Applied (.parser m (.sepBy1 p (.parser i s))) x w .failure w' ↔
      c.Applied p x w .failure w' := by
  refine ⟨fun fails => ?_, fun first => separatedFails first m⟩
  obtain ⟨o, u, first⟩ := ends
  cases o with
  | failure => exact (fails.once (separatedFails first m)).2 ▸ first
  | success v rest =>
    obtain ⟨vs, left, w', greatest⟩ := (advancing v rest u first).greatest
    cases (fails.once (separatedList first greatest m)).1

theorem sepByEnds (k : Mark) : ∃ value left w',
    c.Applied (.parser k (.sepBy p (.parser i s))) x w (.success value left) w' := by
  obtain ⟨o, u, first⟩ := ends
  cases o with
  | failure => exact ⟨_, _, _, sepByNone (separatedFails first k) k⟩
  | success v rest =>
    obtain ⟨vs, left, w', greatest⟩ := (advancing v rest u first).greatest
    exact ⟨_, _, _, sepBySome (separatedList first greatest k) k⟩

end

end
end Calling

/-- The parser of operands with separators between them gives the greatest list that there is, as long
as nothing raises and a separator with an operand shortens the text. It fails with its first operand
only, and instead of that gives an empty list where it may. -/
theorem separatedIsGreatest {c : Calling} {p x : Value} {i : Mark} {s : Grammar} {w : Store}
    (ends : ∃ o u, c.Applied p x w o u)
    (advancing : ∀ v rest u, c.Applied p x w (.success v rest) u →
      Advancing (c.Linked p (.parser i s)) rest u) : c.GreatestList p (.parser i s) x w where
  succeeds := Calling.separatedIff ends advancing
  fails := Calling.separatedFailsIff ends advancing
  unique v rest u first := by
    obtain ⟨vs, left, w', greatest⟩ := (advancing v rest u first).greatest
    exact ⟨vs, left, w', greatest, fun _ _ _ => greatest.once (c.linkedReadBy p (.parser i s))⟩
  same m k v rest u first exit w' := by
    obtain ⟨vs, left, v', greatest⟩ := (advancing v rest u first).greatest
    have some := Calling.separatedList first greatest m
    have also := Calling.sepBySome some k
    constructor
    · intro ended
      obtain ⟨rfl, rfl⟩ := Running.endsOnce also ended
      exact some
    · intro ended
      obtain ⟨rfl, rfl⟩ := Running.endsOnce some ended
      exact also
  empty k u first := Calling.sepByNone (Calling.separatedFails first k) k
  neverFails k := by
    obtain ⟨value, left, v, succeeds⟩ := Calling.sepByEnds ends advancing k
    refine ⟨⟨value, left, v, succeeds⟩, fun w' fails => ?_⟩
    cases (fails.once succeeds).1

theorem Brief.linked {c : Calling} {p sep : Value} {good good' : Value → Prop}
    (operand : Brief c p good) (separator : Brief c sep good') (text : Text) (w : Store) :
    ∃ o w', c.Linked p sep (.str text) w o w' ∧
      ∀ v rest, o = .success v rest → rest.ShorterThan text := by
  obtain ⟨o, first, shorter⟩ := separator text w
  cases o with
  | failure => exact ⟨.failure, w, .none (.operator first), nofun⟩
  | success a mid =>
    obtain ⟨-, mid, rfl, less⟩ := shorter a mid rfl
    obtain ⟨o, second, shorter⟩ := operand mid w
    cases o with
    | failure => exact ⟨.failure, w, .none (.operand first second), nofun⟩
    | success v rest =>
      refine ⟨.success v rest, w, .link first second, ?_⟩
      rintro _ _ ⟨⟩
      obtain ⟨-, rest, rfl, less'⟩ := shorter v rest rfl
      exact ⟨rest, rfl, Nat.lt_trans less' less⟩

def commaText : Text := ['a', ',', 'a', ',', 'b']

def commaA : Grammar := .char (.str [','])

theorem commasSeparate :
    (∃ o u, Calling.script.Applied charA (.str commaText) .empty o u) ∧
    Calling.script.GreatestList charA (.parser (.made 2) commaA) (.str commaText) .empty ∧
    call 4 (.parser (.made 3) (.sepBy1 charA (.parser (.made 2) commaA))) [.str commaText] []
      .empty = (.done (.success (.list [.str ['a'], .str ['a']]) (.str [',', 'b'])), .empty) := by
  have letters := charBrief Calling.script (.made 1) 'a'
  have commas := charBrief Calling.script (.made 2) ','
  obtain ⟨o, first, shorter⟩ := letters commaText .empty
  refine ⟨⟨o, _, first⟩, separatedIsGreatest ⟨o, _, first⟩ fun v rest u other => ?_, by cbv⟩
  obtain ⟨-, rest, rfl, -⟩ := shorter v rest (first.once other).1
  exact advancingOnTexts (Calling.linkedReadBy _ _ _) (letters.linked commas) rest u

end ParseKit.Script
