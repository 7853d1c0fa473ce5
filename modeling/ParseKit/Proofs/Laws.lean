import ParseKit.Proofs.Exchange.Replaying
import ParseKit.Proofs.Sameness

/-! Laws of sequencing and of choice, for whatever is called in whatever way. Main statement: parsers
are a monad, and ordered choice is associative with failure as its unit. Where the function on one
side is one that a script makes of others, the two sides differ in the names of what they make. -/
namespace ParseKit.Script

namespace Calling
variable (c : Calling)

theorem retThenBind (i j : Mark) (v f x : Value) :
    Agree (c.called (.parser i (.bind (.parser j (.ret v)) f)) x) (c.continued f v x) :=
  (c.bindAgrees i _ f x).trans (c.sequenceAgrees (c.retAgrees j v x) f)

theorem altAssociates (a b d : Value) (i j k l : Mark) (x : Value) :
    Agree (c.called (.parser i (.choice [.parser j (.choice [a, b]), d])) x)
      (c.called (.parser k (.choice [a, .parser l (.choice [b, d])])) x) := by
  refine (c.choiceAgrees i _ d x).trans
    ((c.alternativeAgrees (c.choiceAgrees j a b x) (.refl _)).trans ?_)
  refine Agree.trans ?_ ((c.choiceAgrees k a _ x).trans
    (c.alternativeAgrees (.refl _) (c.choiceAgrees l b d x))).symm
  rw [chosen, Running.bindAssoc]
  refine .tail _ fun r => ?_
  cases true : r.truth with
  | true => simp [Running.retBind, true, Agree.refl]
  | false => exact .refl _

theorem failThenAlt (a : Value) (i : Mark) (x : Value) :
    Agree (c.called (.parser i (.choice [Atom.fail.value, a])) x) (c.called a x) :=
  (c.choiceAgrees i _ a x).trans (c.alternativeAgrees (c.failAgrees x) (.refl _))

theorem altThenFail {a : Value} (outcomes : c.GivesOutcomes a) (i : Mark) (x : Value) :
    Agree (c.called (.parser i (.choice [a, Atom.fail.value])) x) (c.called a x) := by
  refine (c.choiceAgrees i a _ x).trans ((c.alternativeAgrees (.refl _) (c.failAgrees x)).trans ?_)
  refine Agree.unit (outcomes x) fun r outcome => ?_
  obtain ⟨o, _, _, fails⟩ := outcomeBack outcome
  cases true : r.truth with
  | true => exact .refl _
  | false => exact fails true ▸ .refl _

theorem retThenAlt (a v : Value) (i j : Mark) (x : Value) :
    Agree (c.called (.parser i (.choice [.parser j (.ret v), a])) x)
      (c.called (.parser j (.ret v)) x) :=
  ((c.choiceAgrees i _ a x).trans (c.alternativeAgrees (c.retAgrees j v x) (.refl _))).trans
    (c.retAgrees j v x).symm

theorem failThenBind (f : Value) (i : Mark) (x : Value) :
    Agree (c.called (.parser i (.bind Atom.fail.value f)) x) (c.called Atom.fail.value x) :=
  ((c.bindAgrees i _ f x).trans (c.sequenceAgrees (c.failAgrees x) f)).trans (c.failAgrees x).symm

end Calling

/-- Laws in which the same is called on both sides, so that both come to the same. A function is called
with the value of each success, and for no failure. -/
structure Lawful (c : Calling) : Prop where
  calls : ∀ limit i p f x, (c.called (.parser i (.bind p f)) x).within (limit + 1) =
    (c.sequenced p f x).within limit
  retBind : ∀ i j v f x,
    Agree (c.called (.parser i (.bind (.parser j (.ret v)) f)) x) (c.continued f v x)
  failBind : ∀ i f x, Agree (c.called (.parser i (.bind Atom.fail.value f)) x)
    (c.called Atom.fail.value x)
  altAssoc : ∀ i j k l a b d x,
    Agree (c.called (.parser i (.choice [.parser j (.choice [a, b]), d])) x)
      (c.called (.parser k (.choice [a, .parser l (.choice [b, d])])) x)
  failAlt : ∀ i a x, Agree (c.called (.parser i (.choice [Atom.fail.value, a])) x) (c.called a x)
  altFail : ∀ i a, c.GivesOutcomes a → ∀ x,
    Agree (c.called (.parser i (.choice [a, Atom.fail.value])) x) (c.called a x)
  retAlt : ∀ i j v a x, Agree (c.called (.parser i (.choice [.parser j (.ret v), a])) x)
    (c.called (.parser j (.ret v)) x)

theorem Calling.lawful (c : Calling) : Lawful c where
  calls := c.bindCalls
  retBind i j v f x := c.retThenBind i j v f x
  failBind i f x := c.failThenBind f i x
  altAssoc i j k l a b d x := c.altAssociates a b d i j k l x
  failAlt i a x := c.failThenAlt a i x
  altFail i _ outcomes x := c.altThenFail outcomes i x
  retAlt i j v a x := c.retThenAlt a v i j x

def returning (name : Name) : Value := .lambda name ["v"] (.unary .ret (.var "v")) []

/- `lambda v: f(v).bind(g)`. -/
def composed (name : Name) (f g : Value) : Value :=
  .lambda name ["v"] (.binary .bind (.call (.var "f") [.var "v"] []) (.var "g"))
    [("f", f), ("g", g)]

theorem returningGives (name : Name) (v : Value) (w : Store) :
    (Calling.script.called (returning name) v).Ends w (.done (.parser (.made w.name) (.ret v)))
      (w.naming w.name.next) := ⟨nofun, 1, rfl⟩

theorem composedAgrees (name : Name) (f g v : Value) :
    Agree (Calling.script.called (composed name f g) v) ((Calling.script.called f v).bind fun p =>
      .always (Eff.ofExcept (Binary.bind.build p g) >>= Run.make)) := .later fun _ => rfl

theorem bindThenReturning {m : Value} (outcomes : Calling.script.GivesOutcomes m) (i : Mark)
    (name : Name) (x : Value) (w : Store) :
    Sameness.butNext.Alike (Calling.script.called (.parser i (.bind m (returning name))) x) w
      (Calling.script.called m x) w := by
  have back : Agree ((Calling.script.called m x).bind .ret) (Calling.script.called m x) := by
    rw [Running.bindRet]
    exact .refl _
  refine .trans (.ofAgree (Calling.script.bindAgrees i m _ x) w) (.trans ?_ (.ofAgree back w))
  rw [Calling.sequenced, Calling.taken, Running.bindAssoc]
  refine .tail _ w fun r u ends => ?_
  obtain ⟨_, limit, run⟩ := ends
  obtain ⟨o, reads, rfl, _⟩ := Calling.outcomeBack (outcomes x limit w r u run)
  rw [reads]
  cases o with
  | failure => exact .ret rfl (Sameness.butNext.stores.refl u)
  | success v rest =>
    refine .trans (.behind (returningGives name v u) _) ?_
    refine .trans (.ofAgree (Calling.script.retAgrees _ v rest) _) (.ret rfl ⟨rfl, rfl⟩)

def warilyOn (limit : Nat) (f : Value) : Outcome Value Value → Run Value
  | .failure => pure .failure
  | .success v rest => callWarily limit f [v] [] >>= fun p => callWarily limit p [rest] []

theorem bindWarily (limit : Nat) (mark : Mark) (p f : Value) (text : Text) :
    callWarily (limit + 1) (.parser mark (.bind p f)) [.str text] [] =
      read (applyBy (callWarily limit)) p (.str text) >>= warilyOn limit f := by
  have opened : callWarily (limit + 1) (.parser mark (.bind p f)) [.str text] [] =
      (Grammar.bind p f).applyWith (applyBy (callWarily limit)) (callWarily limit) limit
        (.str text) := rfl
  refine opened.trans (bind_congr fun o => ?_)
  cases o <;> rfl

theorem composedWarily (limit : Nat) (name : Name) (f g v : Value) :
    callWarily (limit + 1) (composed name f g) [v] [] =
      callWarily limit f [v] [] >>= fun p => Eff.ofExcept (Binary.bind.build p g) >>= Run.make := rfl

section
variable {m f g : Value} {w : Store}

theorem leftAgrees (i j : Mark) (m f g x : Value) :
    Agree (Calling.script.called (.parser i (.bind (.parser j (.bind m f)) g)) x)
      ((Calling.script.taken m x).bind (afterwards fun v rest =>
        (Calling.script.called f v).bind fun p => Calling.script.sequenced p g rest)) := by
  refine (Calling.script.bindAgrees i _ g x).trans
    ((Calling.script.sequenceAgrees (Calling.script.bindAgrees j m f x) g).trans ?_)
  simp only [Calling.sequenced, Running.bindAssoc]
  refine .tail _ fun o => ?_
  cases o with
  | failure => exact .refl _
  | success v rest =>
    simp only [afterwards, Calling.continued, Running.bindAssoc]
    exact .tail _ fun p => by
      rw [Calling.taken, Running.bindAssoc]
      exact .refl _

def composedOn (g rest p : Value) : Running Value :=
  (Running.always (Eff.ofExcept (Binary.bind.build p g) >>= Run.make)).bind fun q =>
    Calling.script.called q rest

theorem rightAgrees (k : Mark) (name : Name) (m f g x : Value) :
    Agree (Calling.script.called (.parser k (.bind m (composed name f g))) x)
      ((Calling.script.taken m x).bind (afterwards fun v rest =>
        (Calling.script.called f v).bind (composedOn g rest))) := by
  refine (Calling.script.bindAgrees k m _ x).trans (.tail _ fun o => ?_)
  cases o with
  | failure => exact .refl _
  | success v rest =>
    refine ((composedAgrees name f g v).head _).trans ?_
    rw [Running.bindAssoc]
    exact .refl _

def GivesParsers (f : Value) : Prop :=
  ∀ v w p w', (Calling.script.called f v).Ends w (.done p) w' → p.isParser = true

theorem Along.given {K : Accord .names} {post : Value → Prop} {x : Run Value} {y : Running Value}
    (along : Along K Value.Renamed x y.within) (gives : ∀ s p s', y.Ends s (.done p) s' → post p) :
    Along K (fun p p' => p.Renamed p' ∧ post p') x y.within :=
  .ofReaches fun a s agree ended => by
    obtain ⟨exit, s', ends, joined⟩ := along.reaches agree ended
    refine ⟨exit, s', ends, ?_⟩
    generalize x a = r at joined
    cases joined with
    | done agree renamed => exact .done agree ⟨renamed, gives s _ s' ends⟩
    | raised agree => exact .raised agree

theorem onAlong (n : Nat) (g : Value) {o o' : Outcome Value Value} (alike : outcomes .names o o') :
    Along (Exchange.names.telling rfl) Value.Renamed (warilyOn n g o)
      (afterwards (Calling.script.continued g) o').within := by
  cases o <;> cases o' <;> try exact alike.elim
  · exact .done .failure
  · exact (calledAlong n (.itself g) alike.1).bind fun _ _ parser => calledAlong n parser alike.2

variable (parsers : GivesParsers f) (n : Nat) (text : Text)
include parsers

theorem leftAlong (i j k : Mark) (name : Name) :
    Along (Exchange.names.telling rfl) Value.Renamed
      (callWarily (n + 2) (.parser i (.bind (.parser j (.bind m f)) g)) [.str text] [])
      (Calling.script.called (.parser k (.bind m (composed name f g))) (.str text)).within := by
  refine Along.agree ?_ (rightAgrees k name m f g (.str text)).symm
  rw [bindWarily]
  have opened : read (applyBy (callWarily (n + 1))) (.parser j (.bind m f)) (.str text) =
      (read (applyBy (callWarily n)) m (.str text) >>= warilyOn n f) >>= fun r =>
        Eff.ofExcept (r.outcome "value") := congrArg (· >>= _) (bindWarily n j m f text)
  rw [opened, Eff.bindAssoc, Eff.bindAssoc]
  refine (takenAlong n (.itself m) (.str text)).bind fun o o' alike => ?_
  cases o <;> cases o' <;> try exact alike.elim
  · exact .done .failure
  · rename_i v rest v' rest'
    simp only [warilyOn, afterwards, Eff.bindAssoc]
    refine ((calledAlong n (.itself f) alike.1).given fun s p s' => parsers v' s p s').bind
      fun p p' both => ?_
    obtain ⟨mark, h, rfl⟩ := Value.parserOf both.2
    rw [← Eff.bindAssoc]
    intro a s agree ended
    have later : Along (Exchange.names.telling rfl) Value.Renamed
        (read (applyBy (callWarily n)) p rest >>= warilyOn (n + 1) g)
        (Calling.script.called (.parser (.made s.name) (.bind (.parser mark h) g)) rest').within :=
      Along.agree ((takenAlong n both.1 alike.2).bind fun _ _ => onAlong (n + 1) g)
        (Calling.script.bindAgrees _ _ g rest').symm
    exact later a (s.naming s.name.next) agree.namedRight ended

theorem rightAlong (i j k : Mark) (name : Name) :
    Along (Exchange.names.telling rfl) Value.Renamed
      (callWarily (n + 2) (.parser k (.bind m (composed name f g))) [.str text] [])
      (Calling.script.called (.parser i (.bind (.parser j (.bind m f)) g)) (.str text)).within := by
  refine Along.agree ?_ (leftAgrees i j m f g (.str text)).symm
  rw [bindWarily]
  refine (takenAlong (n + 1) (.itself m) (.str text)).bind fun o o' alike => ?_
  cases o <;> cases o' <;> try exact alike.elim
  · exact .done .failure
  · rename_i v rest v' rest'
    simp only [warilyOn, afterwards, composedWarily, Eff.bindAssoc]
    refine ((calledAlong n (.itself f) alike.1).given fun s p s' => parsers v' s p s').bind
      fun p p' both => ?_
    have parser : p.isParser = true := by
      obtain ⟨mark, h, rfl⟩ := Value.parserOf both.2
      cases both.1.shaped
      rfl
    obtain ⟨mark, h, rfl⟩ := Value.parserOf parser
    intro a s agree ended
    have later : Along (Exchange.names.telling rfl) Value.Renamed
        (callWarily (n + 1) (.parser (.made a.name) (.bind (.parser mark h) g)) [rest] [])
        (Calling.script.sequenced p' g rest').within :=
      Along.agree (calledAlong (n + 1) (.parser (.bind both.1 (Value.Renamed.itself g))) alike.2)
        (Calling.script.bindAgrees (.made 0) p' g rest')
    exact later (a.naming a.name.next) s agree.namedLeft ended

end

theorem Along.endSame {p q : Value} {limit : Nat} {text : Text} {w : Store}
    (along : Along (Exchange.names.telling rfl) Value.Renamed (callWarily limit p [.str text] [])
      (Calling.script.called q (.str text)).within)
    (ended : (callWarily limit p [.str text] [] w).1 ≠ .exhausted) :
    EndSame (Calling.script.called p (.str text)) (Calling.script.called q (.str text)) w := by
  have alike := Store.Alike.itself Exchange.namesItself w
  obtain ⟨exit, w', ends, seen⟩ := (calledAlong limit (.itself p) (.str text)).ends alike ended
  obtain ⟨exit', w'', ends', seen'⟩ := along.ends alike ended
  exact ⟨exit, w', exit', w'', ends, ends', seen.exit.symm.trans seen'.exit,
    seen.events.symm.trans seen'.events⟩

theorem bindAssociates {m f g : Value} (parsers : GivesParsers f) (i j k : Mark) (name : Name)
    (text : Text) (w : Store)
    (ends : EndsWarily (.parser i (.bind (.parser j (.bind m f)) g)) text w ∨
      EndsWarily (.parser k (.bind m (composed name f g))) text w) :
    EndSame (Calling.script.called (.parser i (.bind (.parser j (.bind m f)) g)) (.str text))
      (Calling.script.called (.parser k (.bind m (composed name f g))) (.str text)) w := by
  rcases ends with ⟨_ | _ | n, ended⟩ | ⟨_ | _ | n, ended⟩
  · exact absurd rfl ended
  · exact absurd rfl ended
  · exact (leftAlong parsers n text i j k name).endSame ended
  · exact absurd rfl ended
  · exact absurd rfl ended
  · exact ((rightAlong parsers n text i j k name).endSame ended).symm

/-- Sequencing and choice are lawful, whatever is called in whatever way. With functions that a script
makes, what is returned behind a parser changes nothing but the name that is given next, and of two
ways to put three parsers in sequence nothing is seen to differ. -/
theorem lawsHold : (∀ c, Lawful c) ∧
    (∀ m, Calling.script.GivesOutcomes m → ∀ i name x w,
      Sameness.butNext.Alike (Calling.script.called (.parser i (.bind m (returning name))) x) w
        (Calling.script.called m x) w) ∧
    ∀ m f g, GivesParsers f → ∀ i j k name text w,
      EndsWarily (.parser i (.bind (.parser j (.bind m f)) g)) text w ∨
          EndsWarily (.parser k (.bind m (composed name f g))) text w →
        EndSame (Calling.script.called (.parser i (.bind (.parser j (.bind m f)) g)) (.str text))
          (Calling.script.called (.parser k (.bind m (composed name f g))) (.str text)) w :=
  ⟨Calling.lawful, fun _ outcomes i name x w => bindThenReturning outcomes i name x w,
    fun _ _ _ parsers i j k name text w ends => bindAssociates parsers i j k name text w ends⟩

def again : Value :=
  .lambda 1 ["c"] (.unary .char (.call (.builtin .log) [.var "c"] [])) []

theorem againGives (v : Value) (w : Store) : (Calling.script.called again v).Ends w
    (.done (.parser (.made w.name) (.char v))) ((w.addEvent (.note v)).naming w.name.next) :=
  ⟨nofun, 2, rfl⟩

theorem againParsers : GivesParsers again := by
  intro v w p w' ends
  cases (Running.endsOnce (againGives v w) ends).1
  rfl

theorem againLawful :
    let left : Value :=
      .parser (.made 3) (.bind (.parser (.made 2) (.bind Atom.item.value again)) (returning 0))
    let right : Value := .parser (.made 5) (.bind Atom.item.value (composed 4 again (returning 0)))
    Sameness.butNext.Alike
        (Calling.script.called (.parser (.made 2) (.bind Atom.item.value (returning 0))) (.str ['a']))
        .empty (Calling.script.called Atom.item.value (.str ['a'])) .empty ∧
      EndSame (Calling.script.called left (.str ['a', 'a', 'b']))
        (Calling.script.called right (.str ['a', 'a', 'b'])) .empty ∧
      ∃ w, (Calling.script.called left (.str ['a', 'a', 'b'])).Ends .empty
        (.done (.success (.str ['a']) (.str ['b']))) w ∧ w.events = #[.note (.str ['a'])] :=
  ⟨lawsHold.2.1 _ (Calling.script.itemOutcomes) _ 0 _ _,
    lawsHold.2.2 Atom.item.value again (returning 0) againParsers _ _ _ 4 _ _
      (.inl ⟨6, nofun⟩), _, ⟨nofun, 6, rfl⟩, rfl⟩

end ParseKit.Script
