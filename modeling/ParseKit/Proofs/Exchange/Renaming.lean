import ParseKit.Proofs.Exchange.Alike
import ParseKit.Proofs.History.Cells

/-! Values that are the same but for names, which functions, blocks, parsers and NaNs have, and but for
cells, where some stand for others. Main statement: only what the cells in a value stand for counts. -/
namespace ParseKit.Script

def Exchange.placing (cells : Name → Name → Prop) : Exchange where
  marks _ := false
  left := none
  right := none
  cells := cells
  agree := nothingMeant
  swapped _ _ := False
  parsers := nothingSwapped

theorem Exchange.placesAlone {cells : Name → Name → Prop} {here there : Option (Text → Text)}
    {label : Text} : ¬ Lone (placing cells).marks here there label := by
  rintro ⟨_, _, _, _, marked, _⟩
  cases marked

abbrev Exchange.names : Exchange := .placing Eq

abbrev Value.Renamed : Value → Value → Prop := Value.Alike .names

theorem Exchange.namesItself : Exchange.names.Reflexive := ⟨rfl, fun _ => rfl⟩

theorem Value.Renamed.itself (v : Value) : v.Renamed v := Value.alikeItself Exchange.namesItself v

section
variable {ρ σ : Name → Name → Prop} {cells : Set Name}

abbrev Wider (cells : Set Name) (ρ σ : Name → Name → Prop) : Prop :=
  ∀ id ∈ cells, ∀ id', ρ id id' → σ id id'

mutual

theorem Value.Alike.within (more : Wider cells ρ σ) : {v v' : Value} → v.Alike (.placing ρ) v' →
    v.Inside cells → v.Alike (.placing σ) v'
  | _, _, .none, _ => .none
  | _, _, .bool b, _ => .bool b
  | _, _, .int n, _ => .int n
  | _, _, .float bits named, _ => .float bits named
  | _, _, .str s, _ => .str s
  | _, _, .list items, inside => .list (items.within more (by simpa using inside))
  | _, _, .tuple items, inside => .tuple (items.within more (by simpa using inside))
  | _, _, .builtin b, _ => .builtin b
  | _, _, .lambda bound, inside => .lambda (bound.within more (by simpa using inside))
  | _, _, .blockFn bound, inside => .blockFn (bound.within more (by simpa using inside))
  | _, _, .parser alike, inside => .parser (alike.within more (by simpa using inside))
  | _, _, .failure, _ => .failure
  | _, _, .success value left, inside => by
    obtain ⟨first, second⟩ : _ ∧ _ := by simpa using inside
    exact .success (value.within more first) (left.within more second)
  | _, _, .swapped exchanged, _ => exchanged.elim
  | _, _, .pointLeft lone _ _, _ => absurd lone Exchange.placesAlone
  | _, _, .pointRight lone _ _, _ => absurd lone Exchange.placesAlone

theorem AllAlike.within (more : Wider cells ρ σ) : {vs vs' : List Value} →
    AllAlike (.placing ρ) vs vs' → (∀ v ∈ vs, v.Inside cells) → AllAlike (.placing σ) vs vs'
  | _, _, .nil, _ => .nil
  | _, _, .cons first others, inside =>
    .cons (first.within more (List.forall_mem_cons.mp inside).1)
      (others.within more (List.forall_mem_cons.mp inside).2)

theorem Grammar.Alike.within (more : Wider cells ρ σ) : {g g' : Grammar} →
    g.Alike (.placing ρ) g' → g.Inside cells → g.Alike (.placing σ) g'
  | _, _, .leaf l, _ => .leaf l
  | _, _, .trace label, _ => .trace label
  | _, _, .raising fault, _ => .raising fault
  | _, _, .shared same, inside => .shared (more _ (by simpa using inside) _ same)
  | _, _, .ret v, inside => .ret (v.within more (by simpa using inside))
  | _, _, .char v, inside => .char (v.within more (by simpa using inside))
  | _, _, .string v, inside => .string (v.within more (by simpa using inside))
  | _, _, .oneOf vs, inside => .oneOf (vs.within more (by simpa using inside))
  | _, _, .noneOf vs, inside => .noneOf (vs.within more (by simpa using inside))
  | _, _, .sat f, inside => .sat (f.within more (by simpa using inside))
  | _, _, .sequenceText ps, inside => .sequenceText (ps.within more (by simpa using inside))
  | _, _, .choice ps, inside => .choice (ps.within more (by simpa using inside))
  | _, _, .count n p, inside => .count n (p.within more (by simpa using inside))
  | _, _, .optional p, inside => .optional (p.within more (by simpa using inside))
  | _, _, .repeated least collect p, inside =>
    .repeated least collect (p.within more (by simpa using inside))
  | _, _, .bind p q, inside => by
    obtain ⟨first, second⟩ : _ ∧ _ := by simpa using inside
    exact .bind (p.within more first) (q.within more second)
  | _, _, .map p q, inside => by
    obtain ⟨first, second⟩ : _ ∧ _ := by simpa using inside
    exact .map (p.within more first) (q.within more second)
  | _, _, .option p q, inside => by
    obtain ⟨first, second⟩ : _ ∧ _ := by simpa using inside
    exact .option (p.within more first) (q.within more second)
  | _, _, .pair p q, inside => by
    obtain ⟨first, second⟩ : _ ∧ _ := by simpa using inside
    exact .pair (p.within more first) (q.within more second)
  | _, _, .keepRight p q, inside => by
    obtain ⟨first, second⟩ : _ ∧ _ := by simpa using inside
    exact .keepRight (p.within more first) (q.within more second)
  | _, _, .keepLeft p q, inside => by
    obtain ⟨first, second⟩ : _ ∧ _ := by simpa using inside
    exact .keepLeft (p.within more first) (q.within more second)
  | _, _, .sepBy p q, inside => by
    obtain ⟨first, second⟩ : _ ∧ _ := by simpa using inside
    exact .sepBy (p.within more first) (q.within more second)
  | _, _, .sepBy1 p q, inside => by
    obtain ⟨first, second⟩ : _ ∧ _ := by simpa using inside
    exact .sepBy1 (p.within more first) (q.within more second)
  | _, _, .chainl1 p q, inside => by
    obtain ⟨first, second⟩ : _ ∧ _ := by simpa using inside
    exact .chainl1 (p.within more first) (q.within more second)
  | _, _, .between p q r, inside => by
    obtain ⟨first, second, third⟩ : _ ∧ _ ∧ _ := by simpa using inside
    exact .between (p.within more first) (q.within more second) (r.within more third)
  | _, _, .block bound body, inside => .block (bound.within more (by simpa using inside)) body

theorem Env.Alike.within (more : Wider cells ρ σ) : {env env' : Env} →
    env.Alike (.placing ρ) env' → (∀ bound ∈ env, bound.2.Inside cells) →
      Env.Alike (.placing σ) env env'
  | _, _, .nil, _ => .nil
  | _, _, .cons x value others, inside =>
    .cons x (value.within more (List.forall_mem_cons.mp inside).1)
      (others.within more (List.forall_mem_cons.mp inside).2)

end

end

end ParseKit.Script
