import ParseKit.Proofs.Exchange.Marks

/-! What is seen of values: of functions and parsers nothing but their sort, and of NaNs not which
they are. Nothing else matters where values are shown, tested, ordered or compared, as long as no two
things are compared that equal only themselves. -/
namespace ParseKit.Script
namespace Value

mutual

/- A value with one function, one block and one parser in place of all, and the names of NaNs
left out. -/
def seen : Value → Value
  | float x => float ⟨x.toBinary64, x.name.map fun _ => 0⟩
  | lambda .. => lambda 0 [] (.lit .none) []
  | blockFn .. => blockFn 0 [] [] []
  | parser .. => parser (.made 0) (.leaf .fail)
  | list vs => list (seenAll vs)
  | tuple vs => tuple (seenAll vs)
  | success v rest => success v.seen rest.seen
  | v => v

def seenAll : List Value → List Value
  | [] => []
  | v :: vs => v.seen :: seenAll vs

end

theorem sameOfSeen {α : Type} {f : Value → α} (keeps : ∀ v, f v.seen = f v) {v w : Value}
    (same : v.seen = w.seen) : f v = f w := (keeps v).symm.trans ((congrArg f same).trans (keeps w))

theorem kindSeen (v : Value) : v.seen.kind = v.kind := by cases v <;> rfl

theorem truthSeen (v : Value) : v.seen.truth = v.truth := by
  cases v with
  | list vs => cases vs <;> rfl
  | tuple vs => cases vs <;> rfl
  | _ => rfl

theorem isTrueSeen (v : Value) : v.seen.isTrue = v.isTrue := by cases v <;> rfl

theorem integerSeen (v : Value) : v.seen.integer? = v.integer? := by cases v <;> rfl

theorem isCallableSeen (v : Value) : v.seen.isCallable = v.isCallable := by cases v <;> rfl

theorem isNumberSeen (v : Value) : v.seen.isNumber = v.isNumber := by cases v <;> rfl

theorem placeSeen (v : Value) : v.seen.place? = v.place? := by cases v <;> rfl

theorem isInSeen (k : CharClass) (v : Value) : v.seen.isIn k = v.isIn k := by cases v <;> rfl

theorem allTextsSeen (start : Nat) (vs : List Value) :
    allTexts start (seenAll vs) = allTexts start vs := by
  induction vs generalizing start with
  | nil => rfl
  | cons v vs ih =>
    cases v with
    | str s => exact congrArg (Except.map _) (ih (start + 1))
    | _ => rfl

theorem charactersSeen (vs : List Value) : characters (seenAll vs) = characters vs := by
  unfold characters
  induction vs with
  | nil => rfl
  | cons v vs ih =>
    rw [seenAll, List.filterMap_cons, List.filterMap_cons, ih]
    cases v <;> rfl

def parenthesized : List Text → Text
  | [shown] => '(' :: shown ++ [',', ')']
  | all => '(' :: Text.commas all ++ [')']

theorem displayTuple (vs : List Value) : (tuple vs).display = parenthesized (displayAll vs) := by
  cases vs with
  | nil => rfl
  | cons v vs => cases vs <;> rfl

theorem displayList (vs : List Value) :
    (list vs).display = '[' :: Text.commas (displayAll vs) ++ [']'] := rfl

theorem displaySuccess (v rest : Value) : (success v rest).display =
    "Success(value=".toList ++ v.display ++ ", remaining=".toList ++ rest.display ++ [')'] := rfl

mutual

theorem displaySeen : (v : Value) → v.seen.display = v.display
  | none | bool _ | int _ | float _ | str _ | builtin _ | lambda .. | blockFn .. | parser ..
  | failure => rfl
  | list vs => by rw [seen, displayList, displayList, displayAllSeen vs]
  | tuple vs => by rw [seen, displayTuple, displayTuple, displayAllSeen vs]
  | success v rest => by
    rw [seen, displaySuccess, displaySuccess, displaySeen v, displaySeen rest]

theorem displayAllSeen : (vs : List Value) → displayAll (seenAll vs) = displayAll vs
  | [] => rfl
  | v :: vs => congrArg₂ List.cons (displaySeen v) (displayAllSeen vs)

end

theorem plainSeen (v : Value) : v.seen.plain = v.plain := by
  cases v with
  | str s => rfl
  | _ => exact displaySeen _

mutual

theorem unhashableSeen : (v : Value) → v.seen.unhashable? = v.unhashable?
  | none | bool _ | int _ | float _ | str _ | builtin _ | lambda .. | blockFn .. | parser ..
  | failure | list _ => rfl
  | tuple vs => firstUnhashableSeen vs
  | success v rest => by
    rw [seen, unhashable?, unhashable?, unhashableSeen v, unhashableSeen rest]

theorem firstUnhashableSeen : (vs : List Value) →
    firstUnhashable? (seenAll vs) = firstUnhashable? vs
  | [] => rfl
  | v :: vs => by
    rw [seenAll, firstUnhashable?, firstUnhashable?, unhashableSeen v, firstUnhashableSeen vs]

end

mutual

theorem singularSeen : (v : Value) → v.seen.singular = v.singular
  | none | bool _ | int _ | str _ | builtin _ | lambda .. | blockFn .. | parser .. | failure => rfl
  | float x => Option.isSome_map
  | list vs => anySingularSeen vs
  | tuple vs => anySingularSeen vs
  | success v rest => by rw [seen, singular, singular, singularSeen v, singularSeen rest]

theorem anySingularSeen : (vs : List Value) → anySingular (seenAll vs) = anySingular vs
  | [] => rfl
  | v :: vs => by rw [seenAll, anySingular, anySingular, singularSeen v, anySingularSeen vs]

end

mutual

theorem seenPlain : (v : Value) → v.singular = false → v.seen = v
  | none, _ | bool _, _ | int _, _ | str _, _ | builtin _, _ | failure, _ => rfl
  | float ⟨x, name⟩, unnamed => by
    simp only [singular, Option.isSome_eq_false_iff, Option.isNone_iff_eq_none] at unnamed
    subst unnamed
    rfl
  | list vs, plain => congrArg list (seenAllPlain vs plain)
  | tuple vs, plain => congrArg tuple (seenAllPlain vs plain)
  | success v rest, plain => by
    rw [singular, Bool.or_eq_false_iff] at plain
    rw [seen, seenPlain v plain.1, seenPlain rest plain.2]

theorem seenAllPlain : (vs : List Value) → anySingular vs = false → seenAll vs = vs
  | [], _ => rfl
  | v :: vs, plain => by
    rw [anySingular, Bool.or_eq_false_iff] at plain
    rw [seenAll, seenPlain v plain.1, seenAllPlain vs plain.2]

end

mutual

theorem identicalSeen : (v w : Value) → v.seen.identical w.seen = v.identical w
  | none, w | bool _, w | int _, w | float _, w | str _, w | builtin _, w | lambda .., w
  | blockFn .., w | parser .., w | failure, w => by cases w <;> rfl
  | list vs, w => by
    cases w with
    | list ws => exact allIdenticalSeen vs ws
    | _ => rfl
  | tuple vs, w => by
    cases w with
    | tuple ws => exact allIdenticalSeen vs ws
    | _ => rfl
  | success v rest, w => by
    cases w with
    | success w rest' => exact congrArg₂ and (identicalSeen v w) (identicalSeen rest rest')
    | _ => rfl

theorem allIdenticalSeen : (vs ws : List Value) →
    allIdentical (seenAll vs) (seenAll ws) = allIdentical vs ws
  | [], ws => by cases ws <;> rfl
  | v :: vs, ws => by
    cases ws with
    | nil => rfl
    | cons w ws => exact congrArg₂ and (identicalSeen v w) (allIdenticalSeen vs ws)

end

theorem namedOther (x y : Binary64) (name : Name) :
    ((⟨x, Option.none⟩ : Floating) == ⟨y, some name⟩) = false := beq_eq_false_iff_ne.mpr (by simp)

theorem otherNamed (x y : Binary64) (name : Name) :
    ((⟨x, some name⟩ : Floating) == ⟨y, Option.none⟩) = false := beq_eq_false_iff_ne.mpr (by simp)

mutual

theorem equalSeen : (v w : Value) → v.singular = false → v.equal w.seen = v.equal w
  | none, w, _ | bool _, w, _ | int _, w, _ | str _, w, _ | builtin _, w, _ | failure, w, _ => by
    cases w <;> rfl
  | float ⟨x, name⟩, w, unnamed => by
    simp only [singular, Option.isSome_eq_false_iff, Option.isNone_iff_eq_none] at unnamed
    subst unnamed
    cases w with
    | float y =>
      obtain ⟨y, name⟩ := y
      cases name with
      | none => rfl
      | some name => simp only [seen, equal, Option.map_some, namedOther]
    | _ => rfl
  | list vs, w, plain => by
    cases w with
    | list ws => exact allEqualSeen vs ws plain
    | _ => rfl
  | tuple vs, w, plain => by
    cases w with
    | tuple ws => exact allEqualSeen vs ws plain
    | _ => rfl
  | success v rest, w, plain => by
    rw [singular, Bool.or_eq_false_iff] at plain
    cases w with
    | success w rest' =>
      exact congrArg₂ and (equalSeen v w plain.1) (equalSeen rest rest' plain.2)
    | _ => rfl

theorem allEqualSeen : (vs ws : List Value) → anySingular vs = false →
    allEqual vs (seenAll ws) = allEqual vs ws
  | [], ws, _ => by cases ws <;> rfl
  | v :: vs, ws, plain => by
    rw [anySingular, Bool.or_eq_false_iff] at plain
    cases ws with
    | nil => rfl
    | cons w ws => exact congrArg₂ and (equalSeen v w plain.1) (allEqualSeen vs ws plain.2)

end

mutual

theorem seenEqual : (v w : Value) → w.singular = false → v.seen.equal w = v.equal w
  | none, w, _ | bool _, w, _ | int _, w, _ | str _, w, _ | builtin _, w, _ | failure, w, _ => rfl
  | lambda .., w, plain | blockFn .., w, plain | parser .., w, plain => by
    cases w with
    | lambda | blockFn | parser => cases plain
    | _ => rfl
  | float ⟨x, name⟩, w, plain => by
    cases w with
    | float y =>
      obtain ⟨y, other⟩ := y
      simp only [singular, Option.isSome_eq_false_iff, Option.isNone_iff_eq_none] at plain
      subst plain
      cases name with
      | none => rfl
      | some name => simp only [seen, equal, Option.map_some, otherNamed]
    | _ => rfl
  | list vs, w, plain => by
    cases w with
    | list ws => exact seenAllEqual vs ws plain
    | _ => rfl
  | tuple vs, w, plain => by
    cases w with
    | tuple ws => exact seenAllEqual vs ws plain
    | _ => rfl
  | success v rest, w, plain => by
    cases w with
    | success w rest' =>
      rw [singular, Bool.or_eq_false_iff] at plain
      exact congrArg₂ and (seenEqual v w plain.1) (seenEqual rest rest' plain.2)
    | _ => rfl

theorem seenAllEqual : (vs ws : List Value) → anySingular ws = false →
    allEqual (seenAll vs) ws = allEqual vs ws
  | [], ws, _ => rfl
  | v :: vs, ws, plain => by
    cases ws with
    | nil => rfl
    | cons w ws =>
      rw [anySingular, Bool.or_eq_false_iff] at plain
      exact congrArg₂ and (seenEqual v w plain.1) (seenAllEqual vs ws plain.2)

end

section
variable {v w v' w' : Value} (left : v.seen = v'.seen) (right : w.seen = w'.seen)
include left right

theorem identicalOfSeen : v.identical w = v'.identical w' := by
  rw [← identicalSeen v w, left, right, identicalSeen]

theorem equalOfSeen (plain : (v.singular && w.singular) = false) : v.equal w = v'.equal w' := by
  have singular : v.singular = v'.singular := sameOfSeen singularSeen left
  have singular' : w.singular = w'.singular := sameOfSeen singularSeen right
  -- A value without singular things is all that is seen of it.
  rcases Bool.and_eq_false_iff.mp plain with none | none
  · have same : v = v' := by
      rw [← seenPlain v none, left, seenPlain v' (singular ▸ none)]
    subst same
    rw [← equalSeen v w none, right, equalSeen v w' none]
  · have same : w = w' := by
      rw [← seenPlain w none, right, seenPlain w' (singular' ▸ none)]
    subst same
    rw [← seenEqual v w none, left, seenEqual v' w none]

end

end Value

def Event.seen : Event → Event
  | note v => note v.seen
  | record r => record r

end ParseKit.Script
