import ParseKit.Proofs.Numerals
import ParseKit.Proofs.Suffix

/-! Parsers that take at least one character whenever they succeed, as far as their form shows
it: those that take one themselves, those with a part in sequence that does, and choices among
such parsers only. Main statement: a success of such a parser leaves a shorter text. -/
namespace ParseKit.Script
open ParseKit.Parser (Leaves)

section
variable {ω : Type}

theorem itemShortens (text : Text) : (Parser.item text : Eff ω _).Gives fun o => ∀ c rest,
    o = .success c rest → rest.length < text.length := by
  cases text with
  | nil => exact .done nofun
  | cons c text =>
    refine .done fun d rest same => ?_
    cases same
    exact Nat.lt_succ_self text.length

theorem satShortens (test : Char → Bool) (text : Text) :
    (Parser.sat test text : Eff ω _).Gives fun o => ∀ c rest,
      o = .success c rest → rest.length < text.length :=
  (itemShortens text).bind fun
    | .failure, _ => .done nofun
    | .success c rest, first => .after fun kept => by
      cases kept with
      | true =>
        refine .done fun d more same => ?_
        cases same
        exact first c rest rfl
      | false => exact .done nofun

theorem stringShortens {word : Text} (some : word ≠ []) (text : Text) :
    (Parser.string word text : Eff ω _).Gives fun o => ∀ v rest,
      o = .success v rest → rest.length < text.length := by
  unfold Parser.string
  cases found : text.afterWord? word with
  | none => exact .done nofun
  | some rest =>
    have joined := congrArg List.length (Text.afterWordIff.mp found)
    have more := List.length_pos_iff.mpr some
    refine .done fun v rest same => ?_
    cases same
    simp only [List.length_append] at joined
    omega

theorem numberShortens {text rest : Text} {x : Binary64} (number : NumberAt text x rest) :
    rest.length < text.length := by
  obtain ⟨n, numeral, same, -⟩ := number
  have digit := ((floatPlainIff numeral.plain x).mp same).1
  obtain ⟨c, more, start, -⟩ := digitStarts numeral.plain digit
  have joined := congrArg List.length numeral.joined
  simp only [start, List.length_append, List.length_cons] at joined
  omega

theorem numShortens (text : Text) : (Parser.num text : Eff ω _).Gives fun o => ∀ x rest,
    o = .success x rest → rest.length < text.length := by
  cases (numReads text : Reads (Parser.num text : Eff ω _) _) with
  | fails same none =>
    rw [same]
    exact .done nofun
  | fits x rest same only =>
    rw [same]
    refine .done fun y more equal => ?_
    cases equal
    exact numberShortens ((only x rest).mpr ⟨rfl, rfl⟩)

end

theorem pairBind {σ ω α β : Type} (a : Parser σ ω α) (b : Parser σ ω β) :
    a.pair b = a.bind fun x => b.map fun y => (x, y) := by
  funext input
  refine bind_congr fun o => ?_
  cases o with
  | failure => rfl
  | success x rest => exact bind_congr fun o => by cases o <;> rfl

def Value.ShorterThan (text : Text) (rest : Value) : Prop :=
  ∃ remaining, rest = .str remaining ∧ remaining.length < text.length

theorem shorterBehind {text mid : Text} {rest : Value} (inside : textSuffix.holds (.str mid) rest)
    (shorter : mid.length < text.length) : rest.ShorterThan text := by
  obtain ⟨remaining, rfl, suffix⟩ := inside mid rfl
  have le := suffix.length_le
  exact ⟨remaining, rfl, by omega⟩

theorem shorterBefore {text : Text} {mid : Value} (inside : textSuffix.holds (.str text) mid) :
    ∃ front, mid = .str front ∧ ∀ rest : Value, rest.ShorterThan front → rest.ShorterThan text := by
  obtain ⟨front, rfl, suffix⟩ := inside text rfl
  refine ⟨front, rfl, fun rest shorter => ?_⟩
  obtain ⟨remaining, rfl, less⟩ := shorter
  have le := suffix.length_le
  exact ⟨remaining, rfl, by omega⟩

def Shorter {α : Type} (text : Text) : Outcome Value α → Prop
  | .failure => True
  | .success _ rest => rest.ShorterThan text

def Shrinks {ω α : Type} (p : Parser Value ω α) : Prop :=
  ∀ text, (p (.str text)).Gives (Shorter text)

namespace Shrinks
variable {ω α β γ : Type}

theorem bindHead {p : Parser Value ω α} {f : α → Parser Value ω β} (head : Shrinks p)
    (tail : ∀ v, Leaves textSuffix (f v)) : Shrinks (p.bind f) := fun text =>
  (head text).bind fun
    | .failure, _ => .done trivial
    | .success v rest, shorter => by
      obtain ⟨mid, rfl, less⟩ := shorter
      exact (tail v _).weaken fun
        | .failure, _ => trivial
        | .success _ _, inside => shorterBehind inside less

theorem bindTail {p : Parser Value ω α} {f : α → Parser Value ω β} (head : Leaves textSuffix p)
    (tail : ∀ v, Shrinks (f v)) : Shrinks (p.bind f) := fun text =>
  (head (.str text)).bind fun
    | .failure, _ => .done trivial
    | .success v rest, inside => by
      obtain ⟨front, rfl, longer⟩ := shorterBefore inside
      exact (tail v front).weaken fun
        | .failure, _ => trivial
        | .success _ _, shorter => longer _ shorter

theorem mapM {p : Parser Value ω α} (head : Shrinks p) (f : α → Eff ω β) : Shrinks (p.mapM f) :=
  fun text =>
  (head text).bind fun
    | .failure, _ => .done trivial
    | .success _ _, shorter => .after fun _ => .done shorter

theorem map {p : Parser Value ω α} (head : Shrinks p) (f : α → β) : Shrinks (p.map f) :=
  head.mapM _

theorem filterM {p : Parser Value ω α} (head : Shrinks p) (test : α → Eff ω Bool) :
    Shrinks (p.filterM test) :=
  head.bindHead fun v rest => .after fun kept => by
    cases kept with
    | true => exact .done (textSuffix.refl rest)
    | false => exact .done trivial

theorem pairLeft {a : Parser Value ω α} {b : Parser Value ω β} (left : Shrinks a)
    (right : Leaves textSuffix b) : Shrinks (a.pair b) := by
  rw [pairBind]
  exact left.bindHead fun x => right.map _

theorem pairRight {a : Parser Value ω α} {b : Parser Value ω β} (left : Leaves textSuffix a)
    (right : Shrinks b) : Shrinks (a.pair b) := by
  rw [pairBind]
  exact bindTail left fun x => right.map _

theorem sequenceFrom {ps : List (Parser Value ω α)} (each : ∀ p ∈ ps, Leaves textSuffix p)
    (some : ∃ p ∈ ps, Shrinks p) (seen : List α) : Shrinks (Parser.sequenceFrom seen ps) := by
  induction ps generalizing seen with
  | nil => obtain ⟨p, member, -⟩ := some; cases member
  | cons q ps ih =>
    obtain ⟨first, others⟩ := List.forall_mem_cons.mp each
    obtain ⟨p, member, shrinks⟩ := some
    cases member with
    | head => exact shrinks.bindHead fun v => .sequenceFrom others (v :: seen)
    | tail _ member => exact bindTail first fun v => ih others ⟨p, member, shrinks⟩ (v :: seen)

theorem countFrom {p : Parser Value ω α} (head : Shrinks p) (leaves : Leaves textSuffix p)
    (seen : List α) {n : Nat} (some : 0 < n) : Shrinks (Parser.countFrom p seen n) := by
  cases n with
  | zero => omega
  | succ n => exact head.bindHead fun v => leaves.countFrom (v :: seen) n

theorem repeatFrom {p : Parser Value ω α} (head : Shrinks p) (leaves : Leaves textSuffix p)
    (limit : Nat) (text : Text) : (Parser.repeatFrom p limit [] (.str text)).Gives fun r =>
      r.1 = [] ∨ r.2.ShorterThan text := by
  unfold Parser.repeatFrom
  refine (head text).bind fun o shorter => ?_
  cases o with
  | failure => exact .done (.inl rfl)
  | success v rest =>
    cases limit with
    | zero => exact .exhausted
    | succ limit =>
      obtain ⟨mid, rfl, less⟩ := shorter
      exact (leaves.repeatFrom limit [v] _).weaken fun r inside => .inr (shorterBehind inside less)

theorem repeated {p : Parser Value ω α} (head : Shrinks p) (leaves : Leaves textSuffix p)
    (limit least : Nat) : Shrinks (Parser.repeated limit (least + 1) p) := fun text => by
  refine (repeatFrom head leaves limit text).bind fun ⟨values, rest⟩ either => ?_
  rcases either with empty | shorter
  · cases empty
    exact .done trivial
  · dsimp only
    split
    · exact .done trivial
    · exact .done shorter

theorem sepBy1Within {p : Parser Value ω α} {sep : Parser Value ω β} (head : Shrinks p)
    (operand : Leaves textSuffix p) (separator : Leaves textSuffix sep) (limit : Nat) :
    Shrinks (Parser.sepBy1Within limit p sep) :=
  head.bindHead fun _ => ((separator.keepRight operand).repeated limit 0).bind fun _ => .ret _

theorem reading {onTexts : Parser Text ω α} (texts : ∀ text, (onTexts text).Gives fun o =>
      ∀ v rest, o = .success v rest → rest.length < text.length)
    (value : α → Value) (onOthers : Parser Value ω Value) :
    Shrinks (reading onTexts value onOthers) := fun text =>
  (texts text).bind fun
    | .failure, _ => .done trivial
    | .success v rest, shorter => .done ⟨rest, rfl, shorter v rest rfl⟩

end Shrinks

def Value.Shorter (text : Text) : Value → Prop
  | failure => True
  | success _ rest => rest.ShorterThan text
  | _ => False

theorem Value.Within.shorter {text mid : Text} {r : Value} (inside : r.Within (.str mid))
    (less : mid.length < text.length) : r.Shorter text := by
  cases r with
  | failure => trivial
  | success a rest => exact shorterBehind inside less
  | _ => exact inside

theorem Value.Shorter.before {text front : Text} {r : Value} (shorter : r.Shorter front)
    (longer : ∀ rest : Value, rest.ShorterThan front → rest.ShorterThan text) : r.Shorter text := by
  cases r with
  | failure => trivial
  | success a rest => exact longer rest shorter
  | _ => exact shorter

def Takes (apply : Applier) (p : Value) : Prop :=
  ∀ text, (apply p (.str text)).Gives (Value.Shorter text)

def Grammar.takesOne : Grammar → Bool
  | leaf .eof => false
  | leaf _ | char _ | oneOf _ | noneOf _ | sat _ | string (.str (_ :: _)) => true
  | _ => false

def Grammar.parts : Grammar → List Value
  | bind p _ | map p _ | repeated (_ + 1) _ p | sepBy1 p _ | chainl1 p _ => [p]
  | pair a b | keepRight a b | keepLeft a b => [a, b]
  | between opening closing p => [opening, p, closing]
  | sequenceText ps => ps
  | count n p => if 1 ≤ n then [p] else []
  | _ => []

/- A parser that shows by its form that it takes something of the text whenever it succeeds. -/
inductive Consuming : Value → Prop where
  | one {mark : Mark} {g : Grammar} (takes : g.takesOne = true) : Consuming (.parser mark g)
  | part {mark : Mark} {g : Grammar} {p : Value} (member : p ∈ g.parts) (inner : Consuming p) :
    Consuming (.parser mark g)
  | returned {mark : Mark} {p f : Value}
      (each : ∀ limit v w q w', call limit f [v] [] w = (.done q, w') → Consuming q) :
    Consuming (.parser mark (.bind p f))
  | choice {mark : Mark} {ps : List Value} (each : ∀ p ∈ ps, Consuming p) :
    Consuming (.parser mark (.choice ps))

theorem giveTakes {p : Parser Value Store Value} (shrinks : Shrinks p) (text : Text) :
    (give p (.str text)).Gives (Value.Shorter text) :=
  (shrinks text).bind fun
    | .failure, _ => .done trivial
    | .success _ _, shorter => .done shorter

theorem oneTakes {g : Grammar} (takes : g.takesOne = true) (apply : Applier) (call : Caller)
    (limit : Nat) (text : Text) :
    (g.applyWith apply call limit (.str text)).Gives (Value.Shorter text) := by
  cases g with
  | leaf l =>
    cases l with
    | item => exact giveTakes (p := item) (.reading itemShortens _ _) text
    | fail => exact giveTakes (fun _ => .done trivial) text
    | eof => cases takes
    | num => exact giveTakes (p := num limit) (.reading numShortens _ _) text
    | ofClass k => exact giveTakes (p := ofClass k) (.reading (satShortens _) _ _) text
  | char c => exact giveTakes (.reading (satShortens _) _ _) text
  | oneOf members => exact giveTakes (.reading (satShortens _) _ _) text
  | noneOf members => exact giveTakes (.reading (satShortens _) _ _) text
  | sat test => exact giveTakes (.filterM (.reading itemShortens _ _) _) text
  | string word =>
    match word with
    | .str (c :: w) =>
      exact giveTakes (p := string (.str (c :: w))) (fun text =>
        Shrinks.reading (stringShortens (List.cons_ne_nil c w)) .str Parser.fail text) text
  | _ => cases takes

section
variable {apply : Applier} {p : Value} (takes : Takes apply p)
include takes

theorem readByShrinks {view : Value → Except Fault (Outcome Value Value)}
    (failing : view .failure = .ok .failure)
    (succeeding : ∀ a rest, view (.success a rest) = .ok (.success a rest)) :
    Shrinks (readBy apply view p) := fun text =>
  (takes text).bind fun r shorter => by
    cases r with
    | failure => rw [failing]; exact .done trivial
    | success a rest => rw [succeeding]; exact .done shorter
    | _ => exact shorter.elim

theorem readShrinks : Shrinks (read apply p) := readByShrinks takes rfl fun _ _ => rfl

theorem readRestShrinks : Shrinks (readRest apply p) := readByShrinks takes rfl fun _ _ => rfl

theorem readPartsShrinks : Shrinks (readParts apply p) := readByShrinks takes rfl fun _ _ => rfl

theorem readWithShrinks (operation : String) : Shrinks (readWith apply operation p) := by
  cases p with
  | parser mark g => exact readShrinks takes
  | _ => exact fun _ => .raise

theorem partTakes (leaves : ApplierLeaves apply) (call : Caller) (limit : Nat) {g : Grammar}
    (part : p ∈ g.parts) (text : Text) :
    (g.applyWith apply call limit (.str text)).Gives (Value.Shorter text) := by
  have reads := readLeaves leaves
  have withs := readWithLeaves leaves
  have shrinks := readShrinks takes
  have withShrinks := readWithShrinks takes
  cases g with
  | bind q f =>
    cases List.mem_singleton.mp part
    refine (shrinks text).bind fun
      | .failure, _ => .done trivial
      | .success v rest, shorter => .after fun q => ?_
    obtain ⟨mid, rfl, less⟩ := shorter
    exact (leaves q (.str mid)).weaken fun r inside => inside.shorter less
  | map q f =>
    cases List.mem_singleton.mp part
    exact giveTakes (shrinks.mapM _) text
  | pair a b =>
    simp only [Grammar.parts, List.mem_cons, List.not_mem_nil, or_false] at part
    rcases part with rfl | rfl
    · exact giveTakes ((Shrinks.pairLeft (readRestShrinks takes) (reads b)).map _) text
    · exact giveTakes ((Shrinks.pairRight (readRestLeaves leaves a) shrinks).map _) text
  | keepRight a b =>
    simp only [Grammar.parts, List.mem_cons, List.not_mem_nil, or_false] at part
    rcases part with rfl | rfl
    · refine (shrinks text).bind fun
        | .failure, _ => .done trivial
        | .success v rest, shorter => ?_
      obtain ⟨mid, rfl, less⟩ := shorter
      exact (leaves b (.str mid)).weaken fun r inside => inside.shorter less
    · refine (reads a (.str text)).bind fun
        | .failure, _ => .done trivial
        | .success v rest, inside => ?_
      obtain ⟨front, rfl, longer⟩ := shorterBefore inside
      exact (takes front).weaken fun r shorter => shorter.before longer
  | keepLeft a b =>
    simp only [Grammar.parts, List.mem_cons, List.not_mem_nil, or_false] at part
    rcases part with rfl | rfl
    · exact giveTakes (shrinks.bindHead fun _ => (withs "map" b).map _) text
    · exact giveTakes (.bindTail (reads a) fun _ => (withShrinks "map").map _) text
  | repeated least collect q =>
    cases least with
    | zero => cases part
    | succ least =>
      cases List.mem_singleton.mp part
      exact giveTakes ((shrinks.repeated (reads p) limit least).mapM _) text
  | sequenceText ps =>
    have each : ∀ q ∈ ps.map (read apply), Leaves textSuffix q := fun q member => by
      obtain ⟨v, -, rfl⟩ := List.mem_map.mp member
      exact reads v
    have some := List.mem_map_of_mem (f := read apply) part
    exact giveTakes ((Shrinks.sequenceFrom each ⟨_, some, shrinks⟩ []).mapM _) text
  | count n q =>
    simp only [Grammar.parts] at part
    split at part
    · next positive =>
      cases List.mem_singleton.mp part
      exact giveTakes ((shrinks.countFrom (reads p) [] (by omega)).map _) text
    · cases part
  | between opening closing q =>
    have last : ∀ x : Value, Leaves textSuffix (Parser.ret x : Parser Value Store Value) :=
      Leaves.ret
    simp only [Grammar.parts, List.mem_cons, List.not_mem_nil, or_false] at part
    rcases part with rfl | rfl | rfl
    · exact giveTakes (shrinks.bindHead fun _ => (withs "bind" q).bind fun x =>
        (withs "bind" closing).bind fun _ => last x) text
    · exact giveTakes (.bindTail (reads opening) fun _ => (withShrinks "bind").bindHead fun x =>
        (withs "bind" closing).bind fun _ => last x) text
    · exact giveTakes (.bindTail (reads opening) fun _ => .bindTail (withs "bind" q) fun x =>
        (withShrinks "bind").bindHead fun _ => last x) text
  | sepBy1 q sep =>
    cases List.mem_singleton.mp part
    have separators := separatorLeaves leaves p sep
    exact giveTakes ((shrinks.sepBy1Within (reads p) separators limit).map _) text
  | chainl1 q op =>
    cases List.mem_singleton.mp part
    exact giveTakes ((readPartsShrinks takes).bindHead fun first =>
      (reads p).chainAfter ((readRestLeaves leaves op).map _) limit first) text
  | _ => cases part

end

theorem firstOfTakes {apply : Applier} {ps : List Value} (each : ∀ p ∈ ps, Takes apply p)
    (text : Text) : (firstOf apply ps (.str text)).Gives (Value.Shorter text) := by
  match ps with
  | [] => exact .done trivial
  | [p] => exact each p List.mem_cons_self text
  | p :: q :: ps =>
    obtain ⟨first, others⟩ := List.forall_mem_cons.mp each
    refine (first text).bind fun r shorter => ?_
    split
    · exact .done shorter
    · exact firstOfTakes others text

theorem returnedTakes {apply : Applier} (leaves : ApplierLeaves apply) {call : Caller} {f : Value}
    (each : ∀ v, (call f [v] []).Gives (Takes apply)) (limit : Nat) (p : Value) (text : Text) :
    ((Grammar.bind p f).applyWith apply call limit (.str text)).Gives (Value.Shorter text) := by
  refine (readLeaves leaves p (.str text)).bind fun
    | .failure, _ => .done trivial
    | .success v rest, inside => (each v).bind fun q takes => ?_
  obtain ⟨front, rfl, longer⟩ := shorterBefore inside
  exact (takes front).weaken fun r shorter => shorter.before longer

theorem consumingTakes {p : Value} (consuming : Consuming p) (limit : Nat) :
    Takes (applyParser limit) p := by
  induction consuming generalizing limit with
  | one takes =>
    cases limit with
    | zero => exact fun _ => .exhausted
    | succ limit => exact oneTakes takes (applyParser limit) (call limit) limit
  | part member _ ih =>
    cases limit with
    | zero => exact fun _ => .exhausted
    | succ limit => exact partTakes (ih limit) (applyParserLeaves limit) (call limit) limit member
  | returned _ ih =>
    cases limit with
    | zero => exact fun _ => .exhausted
    | succ limit =>
      exact returnedTakes (applyParserLeaves limit)
        (fun v w q w' run => ih limit v w q w' run limit) limit _
  | choice _ ih =>
    cases limit with
    | zero => exact fun _ => .exhausted
    | succ limit => exact firstOfTakes fun p member => ih p member limit

end ParseKit.Script
