import Mathlib.Data.Option.Basic
import ParseKit.Proofs.Exchange.Seen
import ParseKit.Proofs.Simulation
import ParseKit.Proofs.Watching

/-! Values in which parsers are exchanged. Two values are alike if they are built alike, but that
trace points may stand before parsers on one side, that some parsers stand for others, and that the
code on the left, which is marked, is meant on the right. Names do not matter. What is seen of values
that are alike is the same, and what is taken from them is alike again. -/
namespace ParseKit.Script

/- How two sides differ: in what marks mean there, in the cells of shared parsers, and in parsers that
stand for each other. -/
structure Exchange where
  marks : Text → Bool
  left : Option (Text → Text)
  right : Option (Text → Text)
  cells : Name → Name → Prop
  agree : ∀ f g, left = some f → right = some g → f = g
  swapped : Value → Value → Prop
  parsers : ∀ {v v'}, swapped v v' → v.isParser = true ∧ v'.isParser = true

/- A trace point with this label stands for a mark here, and nothing there. -/
structure Lone (marks : Text → Bool) (here there : Option (Text → Text)) (label : Text) : Prop where
  nothing : there = none
  point : ∃ f old, here = some f ∧ marks old = true ∧ label = f old

namespace Exchange
variable (X : Exchange)

def onLeft : Marking := ⟨X.marks, X.left⟩

def onRight : Marking := ⟨X.marks, X.right⟩

abbrev LoneLeft : Text → Prop := Lone X.marks X.left X.right

abbrev LoneRight : Text → Prop := Lone X.marks X.right X.left

structure Reflexive : Prop where
  clear : X.onRight = .clear
  cells : ∀ id, X.cells id id

theorem nothingMeant (f g : Text → Text) (left : none = some f) (_ : none = some g) : f = g :=
  nomatch left

theorem nothingSwapped {v v' : Value} (swapped : False) :
    v.isParser = true ∧ v'.isParser = true := swapped.elim

end Exchange

section
variable (X : Exchange)

mutual

inductive Value.Alike : Value → Value → Prop where
  | none : Value.Alike .none .none
  | bool (b : Bool) : Value.Alike (.bool b) (.bool b)
  | int (n : Int) : Value.Alike (.int n) (.int n)
  | float {x y : Floating} (bits : x.toBinary64 = y.toBinary64)
      (named : x.name.isSome = y.name.isSome) : Value.Alike (.float x) (.float y)
  | str (s : Text) : Value.Alike (.str s) (.str s)
  | list {vs vs' : List Value} (items : AllAlike vs vs') : Value.Alike (.list vs) (.list vs')
  | tuple {vs vs' : List Value} (items : AllAlike vs vs') : Value.Alike (.tuple vs) (.tuple vs')
  | builtin (b : Builtin) : Value.Alike (.builtin b) (.builtin b)
  | lambda {m n : Name} {params : List String} {body : Expr} {env env' : Env}
      (bound : Env.Alike env env') :
      Value.Alike (.lambda m params body env) (.lambda n params (body.meant X.onRight) env')
  | blockFn {m n : Name} {params : List String} {body : List Stmt} {env env' : Env}
      (bound : Env.Alike env env') :
      Value.Alike (.blockFn m params body env) (.blockFn n params (meantBody X.onRight body) env')
  | parser {m n : Mark} {g g' : Grammar} (alike : Grammar.Alike g g') :
      Value.Alike (.parser m g) (.parser n g')
  | failure : Value.Alike .failure .failure
  | success {v v' rest rest' : Value} (value : Value.Alike v v') (left : Value.Alike rest rest') :
      Value.Alike (.success v rest) (.success v' rest')
  | swapped {v v' : Value} (swapped : X.swapped v v') : Value.Alike v v'
  | pointLeft {m n : Mark} {label : Text} {v v' : Value} (lone : X.LoneLeft label)
      (parser : v'.isParser = true) (alike : Value.Alike v v') :
      Value.Alike (.parser m (.keepRight (.parser n (.trace label)) v)) v'
  | pointRight {m n : Mark} {label : Text} {v v' : Value} (lone : X.LoneRight label)
      (parser : v.isParser = true) (alike : Value.Alike v v') :
      Value.Alike v (.parser m (.keepRight (.parser n (.trace label)) v'))

inductive AllAlike : List Value → List Value → Prop where
  | nil : AllAlike [] []
  | cons {v v' : Value} {vs vs' : List Value} (first : Value.Alike v v')
      (others : AllAlike vs vs') : AllAlike (v :: vs) (v' :: vs')

inductive Grammar.Alike : Grammar → Grammar → Prop where
  | leaf (l : Leaf) : Grammar.Alike (.leaf l) (.leaf l)
  | ret {v v' : Value} (value : Value.Alike v v') : Grammar.Alike (.ret v) (.ret v')
  | char {v v' : Value} (value : Value.Alike v v') : Grammar.Alike (.char v) (.char v')
  | string {v v' : Value} (value : Value.Alike v v') : Grammar.Alike (.string v) (.string v')
  | oneOf {vs vs' : List Value} (members : AllAlike vs vs') :
      Grammar.Alike (.oneOf vs) (.oneOf vs')
  | noneOf {vs vs' : List Value} (members : AllAlike vs vs') :
      Grammar.Alike (.noneOf vs) (.noneOf vs')
  | sat {f f' : Value} (test : Value.Alike f f') : Grammar.Alike (.sat f) (.sat f')
  | trace (label : Text) : Grammar.Alike (.trace label) (.trace label)
  | bind {p p' f f' : Value} (head : Value.Alike p p') (function : Value.Alike f f') :
      Grammar.Alike (.bind p f) (.bind p' f')
  | map {p p' f f' : Value} (head : Value.Alike p p') (function : Value.Alike f f') :
      Grammar.Alike (.map p f) (.map p' f')
  | choice {ps ps' : List Value} (parsers : AllAlike ps ps') :
      Grammar.Alike (.choice ps) (.choice ps')
  | option {v v' p p' : Value} (default : Value.Alike v v') (inner : Value.Alike p p') :
      Grammar.Alike (.option v p) (.option v' p')
  | pair {p p' q q' : Value} (first : Value.Alike p p') (second : Value.Alike q q') :
      Grammar.Alike (.pair p q) (.pair p' q')
  | keepRight {p p' q q' : Value} (first : Value.Alike p p') (second : Value.Alike q q') :
      Grammar.Alike (.keepRight p q) (.keepRight p' q')
  | keepLeft {p p' q q' : Value} (first : Value.Alike p p') (second : Value.Alike q q') :
      Grammar.Alike (.keepLeft p q) (.keepLeft p' q')
  | repeated (least : Nat) (collect : Collect) {p p' : Value} (inner : Value.Alike p p') :
      Grammar.Alike (.repeated least collect p) (.repeated least collect p')
  | sequenceText {ps ps' : List Value} (parsers : AllAlike ps ps') :
      Grammar.Alike (.sequenceText ps) (.sequenceText ps')
  | count (n : Int) {p p' : Value} (inner : Value.Alike p p') :
      Grammar.Alike (.count n p) (.count n p')
  | between {a a' b b' p p' : Value} (opening : Value.Alike a a') (closing : Value.Alike b b')
      (inner : Value.Alike p p') : Grammar.Alike (.between a b p) (.between a' b' p')
  | optional {p p' : Value} (inner : Value.Alike p p') :
      Grammar.Alike (.optional p) (.optional p')
  | sepBy {p p' q q' : Value} (operand : Value.Alike p p') (separator : Value.Alike q q') :
      Grammar.Alike (.sepBy p q) (.sepBy p' q')
  | sepBy1 {p p' q q' : Value} (operand : Value.Alike p p') (separator : Value.Alike q q') :
      Grammar.Alike (.sepBy1 p q) (.sepBy1 p' q')
  | chainl1 {p p' q q' : Value} (operand : Value.Alike p p') (operator : Value.Alike q q') :
      Grammar.Alike (.chainl1 p q) (.chainl1 p' q')
  | shared {id id' : Name} (same : X.cells id id') : Grammar.Alike (.shared id) (.shared id')
  | block {env env' : Env} (bound : Env.Alike env env') (body : List Stmt) :
      Grammar.Alike (.block env body) (.block env' (meantBody X.onRight body))
  | raising (fault : Fault) : Grammar.Alike (.raising fault) (.raising fault)

inductive Env.Alike : Env → Env → Prop where
  | nil : Env.Alike [] []
  | cons (x : String) {v v' : Value} {env env' : Env} (value : Value.Alike v v')
      (others : Env.Alike env env') : Env.Alike ((x, v) :: env) ((x, v') :: env')

end

inductive Value.Shaped : Value → Value → Prop where
  | none : Value.Shaped .none .none
  | bool (b : Bool) : Value.Shaped (.bool b) (.bool b)
  | int (n : Int) : Value.Shaped (.int n) (.int n)
  | float {x y : Floating} (bits : x.toBinary64 = y.toBinary64) : Value.Shaped (.float x) (.float y)
  | str (s : Text) : Value.Shaped (.str s) (.str s)
  | list {vs vs' : List Value} (items : AllAlike X vs vs') : Value.Shaped (.list vs) (.list vs')
  | tuple {vs vs' : List Value} (items : AllAlike X vs vs') : Value.Shaped (.tuple vs) (.tuple vs')
  | builtin (b : Builtin) : Value.Shaped (.builtin b) (.builtin b)
  | lambda {m n : Name} {params : List String} {body : Expr} {env env' : Env}
      (bound : Env.Alike X env env') :
      Value.Shaped (.lambda m params body env) (.lambda n params (body.meant X.onRight) env')
  | blockFn {m n : Name} {params : List String} {body : List Stmt} {env env' : Env}
      (bound : Env.Alike X env env') :
      Value.Shaped (.blockFn m params body env) (.blockFn n params (meantBody X.onRight body) env')
  | parser (m n : Mark) (g g' : Grammar) : Value.Shaped (.parser m g) (.parser n g')
  | failure : Value.Shaped .failure .failure
  | success {v v' rest rest' : Value} (value : v.Alike X v') (left : rest.Alike X rest') :
      Value.Shaped (.success v rest) (.success v' rest')

end

section
variable {X : Exchange} {v v' w w' : Value}

theorem Value.Shaped.ofParsers (parser : v.isParser = true) (parser' : v'.isParser = true) :
    v.Shaped X v' := by
  obtain ⟨m, g, rfl⟩ := parserOf parser
  obtain ⟨n, g', rfl⟩ := parserOf parser'
  exact .parser m n g g'

theorem Value.Alike.shaped (alike : v.Alike X v') : v.Shaped X v' := by
  cases alike with
  | none => exact .none
  | bool b => exact .bool b
  | int n => exact .int n
  | float bits => exact .float bits
  | str s => exact .str s
  | list items => exact .list items
  | tuple items => exact .tuple items
  | builtin b => exact .builtin b
  | lambda bound => exact .lambda bound
  | blockFn bound => exact .blockFn bound
  | parser alike => exact .parser ..
  | failure => exact .failure
  | success value left => exact .success value left
  | swapped swapped => exact .ofParsers (X.parsers swapped).1 (X.parsers swapped).2
  | pointLeft lone parser => exact .ofParsers rfl parser
  | pointRight lone parser => exact .ofParsers parser rfl

mutual

theorem Value.Alike.seen : {v v' : Value} → v.Alike X v' → v.seen = v'.seen
  | _, _, .none | _, _, .bool _ | _, _, .int _ | _, _, .str _ | _, _, .builtin _
  | _, _, .lambda _ | _, _, .blockFn _ | _, _, .parser _ | _, _, .failure => rfl
  | .float x, .float y, .float bits named => by
    simp only [Value.seen, bits]
    cases left : x.name <;> cases right : y.name <;> simp_all
  | _, _, .list items => congrArg Value.list items.seen
  | _, _, .tuple items => congrArg Value.tuple items.seen
  | _, _, .success value left => congrArg₂ Value.success value.seen left.seen
  | _, _, .swapped swapped => by
    obtain ⟨_, _, rfl⟩ := Value.parserOf (X.parsers swapped).1
    obtain ⟨_, _, rfl⟩ := Value.parserOf (X.parsers swapped).2
    rfl
  | _, _, .pointLeft _ parser _ => by
    obtain ⟨_, _, rfl⟩ := Value.parserOf parser
    rfl
  | _, _, .pointRight _ parser _ => by
    obtain ⟨_, _, rfl⟩ := Value.parserOf parser
    rfl

theorem AllAlike.seen : {vs vs' : List Value} → AllAlike X vs vs' →
    Value.seenAll vs = Value.seenAll vs'
  | _, _, .nil => rfl
  | _, _, .cons first others => congrArg₂ List.cons first.seen others.seen

end

mutual

theorem Value.alikeItself (itself : X.Reflexive) : (v : Value) → v.Alike X v
  | .none => .none
  | .bool b => .bool b
  | .int n => .int n
  | .float _ => .float rfl rfl
  | .str s => .str s
  | .list vs => .list (allAlikeItself itself vs)
  | .tuple vs => .tuple (allAlikeItself itself vs)
  | .builtin b => .builtin b
  | .lambda m params body env => by
    have alike : Value.Alike X (.lambda m params body env)
        (.lambda m params (body.meant X.onRight) env) := .lambda (Env.alikeItself itself env)
    rwa [itself.clear, Expr.meantClear] at alike
  | .blockFn m params body env => by
    have alike : Value.Alike X (.blockFn m params body env)
        (.blockFn m params (meantBody X.onRight body) env) := .blockFn (Env.alikeItself itself env)
    rwa [itself.clear, meantBodyClear] at alike
  | .parser _ g => .parser (Grammar.alikeItself itself g)
  | .failure => .failure
  | .success v rest => .success (Value.alikeItself itself v) (Value.alikeItself itself rest)

theorem allAlikeItself (itself : X.Reflexive) : (vs : List Value) → AllAlike X vs vs
  | [] => .nil
  | v :: vs => .cons (Value.alikeItself itself v) (allAlikeItself itself vs)

theorem Grammar.alikeItself (itself : X.Reflexive) : (g : Grammar) → g.Alike X g
  | .leaf l => .leaf l
  | .ret v => .ret (Value.alikeItself itself v)
  | .char v => .char (Value.alikeItself itself v)
  | .string v => .string (Value.alikeItself itself v)
  | .oneOf vs => .oneOf (allAlikeItself itself vs)
  | .noneOf vs => .noneOf (allAlikeItself itself vs)
  | .sat f => .sat (Value.alikeItself itself f)
  | .trace label => .trace label
  | .bind p f => .bind (Value.alikeItself itself p) (Value.alikeItself itself f)
  | .map p f => .map (Value.alikeItself itself p) (Value.alikeItself itself f)
  | .choice ps => .choice (allAlikeItself itself ps)
  | .option v p => .option (Value.alikeItself itself v) (Value.alikeItself itself p)
  | .pair p q => .pair (Value.alikeItself itself p) (Value.alikeItself itself q)
  | .keepRight p q => .keepRight (Value.alikeItself itself p) (Value.alikeItself itself q)
  | .keepLeft p q => .keepLeft (Value.alikeItself itself p) (Value.alikeItself itself q)
  | .repeated least collect p => .repeated least collect (Value.alikeItself itself p)
  | .sequenceText ps => .sequenceText (allAlikeItself itself ps)
  | .count n p => .count n (Value.alikeItself itself p)
  | .between p q r =>
    .between (Value.alikeItself itself p) (Value.alikeItself itself q) (Value.alikeItself itself r)
  | .optional p => .optional (Value.alikeItself itself p)
  | .sepBy p q => .sepBy (Value.alikeItself itself p) (Value.alikeItself itself q)
  | .sepBy1 p q => .sepBy1 (Value.alikeItself itself p) (Value.alikeItself itself q)
  | .chainl1 p q => .chainl1 (Value.alikeItself itself p) (Value.alikeItself itself q)
  | .shared id => .shared (itself.cells id)
  | .block env body => by
    have alike := Grammar.Alike.block (Env.alikeItself itself env) body
    rwa [itself.clear, meantBodyClear] at alike
  | .raising fault => .raising fault

theorem Env.alikeItself (itself : X.Reflexive) :
    (env : List (String × Value)) → Env.Alike X env env
  | [] => .nil
  | (x, v) :: env => .cons x (Value.alikeItself itself v) (Env.alikeItself itself env)

end

inductive ResultAlike {α β : Type} (R : α → β → Prop) : Except Fault α → Except Fault β → Prop where
  | ok {a : α} {b : β} (related : R a b) : ResultAlike R (.ok a) (.ok b)
  | error (fault : Fault) : ResultAlike R (.error fault) (.error fault)

namespace ResultAlike
variable {α β γ δ : Type} {R : α → β → Prop} {S : γ → δ → Prop} {r : Except Fault α}
  {r' : Except Fault β}

theorem bind {f : α → Except Fault γ} {g : β → Except Fault δ} (head : ResultAlike R r r')
    (tail : ∀ a b, R a b → ResultAlike S (f a) (g b)) :
    ResultAlike S (r >>= f) (r' >>= g) := by
  cases head with
  | ok related => exact tail _ _ related
  | error fault => exact .error fault

theorem map {f : α → γ} {g : β → δ} (head : ResultAlike R r r')
    (tail : ∀ a b, R a b → S (f a) (g b)) : ResultAlike S (r.map f) (r'.map g) := by
  cases head with
  | ok related => exact .ok (tail _ _ related)
  | error fault => exact .error fault

theorem same {R : α → α → Prop} {r s : Except Fault α} (equal : r = s)
    (itself : ∀ a, r = .ok a → R a a) : ResultAlike R r s := by
  subst equal
  cases r with
  | ok a => exact .ok (itself a rfl)
  | error fault => exact .error fault

end ResultAlike

def alikes (X : Exchange) : Likeness OneWorld Value Value := ⟨fun _ => Value.Alike X, fun _ => id⟩

abbrev outcomes (X : Exchange) : Outcome Value Value → Outcome Value Value → Prop :=
  ((alikes X).outcome (alikes X)).holds .only

namespace AllAlike
variable {vs vs' ws ws' : List Value}

theorem forall₂ : {vs vs' : List Value} → AllAlike X vs vs' → List.Forall₂ (Value.Alike X) vs vs'
  | _, _, .nil => .nil
  | _, _, .cons first others => .cons first others.forall₂

theorem ofForall₂ (alike : List.Forall₂ (Value.Alike X) vs vs') : AllAlike X vs vs' := by
  induction alike with
  | nil => exact .nil
  | cons first _ ih => exact .cons first ih

theorem length (alike : AllAlike X vs vs') : vs.length = vs'.length := alike.forall₂.length_eq

theorem append (first : AllAlike X vs vs') (second : AllAlike X ws ws') :
    AllAlike X (vs ++ ws) (vs' ++ ws') :=
  ofForall₂ (List.rel_append first.forall₂ second.forall₂)

theorem reverse (alike : AllAlike X vs vs') : AllAlike X vs.reverse vs'.reverse :=
  ofForall₂ (List.rel_reverse alike.forall₂)

theorem strings (s : Text) :
    AllAlike X (s.map fun c => Value.str [c]) (s.map fun c => Value.str [c]) := by
  induction s with
  | nil => exact .nil
  | cons c s ih => exact .cons (.str [c]) ih

end AllAlike

namespace Value.Alike
open Value (sameOfSeen)
variable (alike : v.Alike X v')
include alike

theorem kind : v.kind = v'.kind := sameOfSeen kindSeen alike.seen

theorem truth : v.truth = v'.truth := sameOfSeen truthSeen alike.seen

theorem elements : ResultAlike (AllAlike X) v.elements v'.elements := by
  cases alike.shaped with
  | str s => exact .ok (.strings s)
  | list items => exact .ok items
  | tuple items => exact .ok items
  | success value left => exact .ok (.cons value (.cons left .nil))
  | _ => exact .error _

theorem parts : ResultAlike (fun p q => p.1.Alike X q.1 ∧ p.2.Alike X q.2) v.parts v'.parts := by
  have elements := alike.elements
  unfold Value.parts
  rw [alike.kind]
  generalize v.elements = r at elements
  generalize v'.elements = r' at elements
  cases elements with
  | error fault => exact .error _
  | ok items =>
    cases items with
    | nil => exact .error _
    | cons first others =>
      cases others with
      | nil => exact .error _
      | cons second others =>
        cases others with
        | nil => exact .ok ⟨first, second⟩
        | cons third others =>
          simp only [List.length_cons, others.length]
          exact .error _

theorem outcome (part : String) : ResultAlike (outcomes X) (v.outcome part) (v'.outcome part) := by
  have truth := alike.truth
  have kind := alike.kind
  have other : ResultAlike (outcomes X)
      (if v.truth then .error (.lacks v.kind part) else .ok .failure)
      (if v'.truth then .error (.lacks v'.kind part) else .ok .failure) := by
    rw [truth, kind]
    split
    · exact .error _
    · exact .ok trivial
  cases alike.shaped with
  | success value left => exact .ok ⟨value, left⟩
  | _ => exact other

theorem outcomeByParts : ResultAlike (outcomes X) v.outcomeByParts v'.outcomeByParts := by
  unfold Value.outcomeByParts
  rw [alike.truth]
  split
  · exact alike.parts.map fun _ _ => id
  · exact .ok trivial

theorem hashed : ResultAlike (Value.Alike X) v.hashed v'.hashed := by
  have same : v.unhashable? = v'.unhashable? := sameOfSeen unhashableSeen alike.seen
  unfold Value.hashed
  rw [same]
  split
  · exact .error _
  · exact .ok alike

theorem members : ResultAlike (AllAlike X) v.members v'.members := by
  refine alike.elements.bind fun vs vs' items => ?_
  clear alike
  replace items := items.forall₂
  induction items with
  | nil => exact .ok .nil
  | cons first _ ih =>
    rw [List.mapM_cons, List.mapM_cons]
    exact first.hashed.bind fun _ _ here => ih.bind fun _ _ others => .ok (.cons here others)

theorem alternatives : ResultAlike (AllAlike X) v.alternatives v'.alternatives := by
  have elements := alike.elements
  have truth := alike.truth
  have kind := alike.kind
  have other : ResultAlike (AllAlike X)
      (if v.truth then .error (.notSubscriptable v.kind) else .ok [])
      (if v'.truth then .error (.notSubscriptable v'.kind) else .ok []) := by
    rw [truth, kind]
    split
    · exact .error _
    · exact .ok .nil
  cases alike.shaped with
  | str | list | tuple => exact elements
  | _ => exact other

end Value.Alike

namespace Env.Alike

theorem find? (x : String) {env env' : Env} (alike : env.Alike X env') :
    Option.Rel (Value.Alike X) (env.find? x) (env'.find? x) := by
  induction env generalizing env' with
  | nil =>
    cases alike
    exact .none
  | cons entry env ih =>
    cases alike with
    | cons y value others =>
      simp only [Env.find?]
      split
      · exact .some value
      · exact ih others

theorem set (x : String) (value : v.Alike X v') {env env' : Env} (alike : env.Alike X env') :
    Env.Alike X (env.set x v) (env'.set x v') := by
  induction env generalizing env' with
  | nil =>
    cases alike
    exact .cons x value .nil
  | cons entry env ih =>
    cases alike with
    | cons y here others =>
      simp only [Env.set]
      split
      · exact .cons x value others
      · exact .cons y here (ih others)

end Env.Alike

inductive BoundAlike (X : Exchange) : Except String Env → Except String Env → Prop where
  | ok {env env' : Env} (bound : env.Alike X env') : BoundAlike X (.ok env) (.ok env')
  | error (x : String) : BoundAlike X (.error x) (.error x)

theorem Env.Alike.bindAll {env env' named named' : Env} (alike : env.Alike X env')
    (names : named.Alike X named') (params : List String) {args args' : List Value}
    (given : AllAlike X args args') :
    BoundAlike X (env.bindAll named params args) (env'.bindAll named' params args') := by
  induction params generalizing env env' args args' with
  | nil => exact .ok alike
  | cons x params ih =>
    cases given with
    | cons first others => exact ih (.set x first alike) others
    | nil =>
      have found := Env.Alike.find? x names
      simp only [Env.bindAll]
      generalize named.find? x = o at found
      generalize named'.find? x = o' at found
      cases found with
      | none => exact .error x
      | some value => exact ih (.set x value alike) .nil

theorem soleArgumentAlike {args args' : List Value} (given : AllAlike X args args')
    {named named' : Env} (names : named.Alike X named') :
    ResultAlike (Value.Alike X) (soleArgument args named) (soleArgument args' named') := by
  induction named generalizing named' args args' with
  | nil =>
    cases names
    cases given with
    | nil => exact .error _
    | cons first others =>
      cases others with
      | nil => exact .ok first
      | cons second others =>
        simp only [soleArgument, List.length_cons, others.length]
        exact .error _
  | cons entry named ih =>
    cases names with
    | cons x value others =>
      simp only [soleArgument]
      split
      · cases given with
        | nil => exact ih (.cons value .nil) others
        | cons => exact .error _
      · split
        · exact .error _
        · exact .error _

end

end ParseKit.Script
