import ParseKit.Parser.Basic

/-! How an evaluation in two parts ends, and what holds of every value that an evaluation
gives, from whatever store. -/
namespace ParseKit.Eff
variable {ω α β : Type}

theorem bindOfDone {x : Eff ω α} {f : α → Eff ω β} {a : α} {w v : ω} (run : x w = (.done a, v)) :
    (x >>= f) w = f a v := by
  change Eff.bind x f w = f a v
  unfold Eff.bind
  rw [run]

theorem bindOfRaised {x : Eff ω α} {f : α → Eff ω β} {fault : Fault} {w v : ω}
    (run : x w = (.raised fault, v)) : (x >>= f) w = (.raised fault, v) := by
  change Eff.bind x f w = (.raised fault, v)
  unfold Eff.bind
  rw [run]

theorem bindOfExhausted {x : Eff ω α} {f : α → Eff ω β} {w v : ω} (run : x w = (.exhausted, v)) :
    (x >>= f) w = (.exhausted, v) := by
  change Eff.bind x f w = (.exhausted, v)
  unfold Eff.bind
  rw [run]

theorem bindHead {x y : Eff ω α} {w : ω} (same : x w = y w) (f : α → Eff ω β) :
    (x >>= f) w = (y >>= f) w := by
  change Eff.bind x f w = Eff.bind y f w
  unfold Eff.bind
  rw [same]

theorem attemptOfDone {x : Eff ω α} {a : α} {w v : ω} (run : x w = (.done a, v)) :
    x.attempt w = (.done (.ok a), v) := by
  unfold Eff.attempt
  rw [run]

theorem attemptOfRaised {x : Eff ω α} {fault : Fault} {w v : ω} (run : x w = (.raised fault, v)) :
    x.attempt w = (.done (.error fault), v) := by
  unfold Eff.attempt
  rw [run]

theorem attemptOfExhausted {x : Eff ω α} {w v : ω} (run : x w = (.exhausted, v)) :
    x.attempt w = (.exhausted, v) := by
  unfold Eff.attempt
  rw [run]

theorem bindCongrAt {x : Eff ω α} {f g : α → Eff ω β} {w : ω}
    (tail : ∀ a v, x w = (.done a, v) → f a v = g a v) : (x >>= f) w = (x >>= g) w := by
  change Eff.bind x f w = Eff.bind x g w
  unfold Eff.bind
  rcases run : x w with ⟨a | fault | _, v⟩
  · exact tail a v run
  · rfl
  · rfl

theorem bindEnds {x : Eff ω α} {f : α → Eff ω β} {w w' : ω} {exit : Exit β}
    (run : (x >>= f) w = (exit, w')) (ended : exit ≠ .exhausted) :
    (∃ a v, x w = (.done a, v) ∧ f a v = (exit, w')) ∨
      ∃ fault, x w = (.raised fault, w') ∧ exit = .raised fault := by
  change Eff.bind x f w = (exit, w') at run
  unfold Eff.bind at run
  rcases head : x w with ⟨a | fault | _, v⟩ <;> rw [head] at run
  · exact .inl ⟨a, v, rfl, run⟩
  · cases run
    exact .inr ⟨fault, rfl, rfl⟩
  · cases run
    exact absurd rfl ended

def Gives (x : Eff ω α) (post : α → Prop) : Prop := ∀ w a w', x w = (.done a, w') → post a

namespace Gives

theorem done {a : α} {post : α → Prop} (holds : post a) : Gives (Eff.done a : Eff ω α) post := by
  intro w b w' run
  cases run
  exact holds

theorem raise {fault : Fault} {post : α → Prop} : Gives (Eff.raise fault : Eff ω α) post := by
  intro w a w' run
  cases run

theorem exhausted {post : α → Prop} : Gives (Eff.exhausted : Eff ω α) post := by
  intro w a w' run
  cases run

theorem always {x : Eff ω α} {post : α → Prop} (holds : ∀ a, post a) : Gives x post :=
  fun _ a _ _ => holds a

theorem bind {x : Eff ω α} {f : α → Eff ω β} {mid : α → Prop} {post : β → Prop}
    (head : Gives x mid) (tail : ∀ a, mid a → Gives (f a) post) : Gives (x >>= f) post := by
  intro w b w' run
  obtain ⟨a, v, first, last⟩ := bindDoneIff.mp run
  exact tail a (head _ _ _ first) _ _ _ last

theorem after {x : Eff ω α} {f : α → Eff ω β} {post : β → Prop}
    (tail : ∀ a, Gives (f a) post) : Gives (x >>= f) post := by
  intro w b w' run
  obtain ⟨a, v, -, last⟩ := bindDoneIff.mp run
  exact tail a _ _ _ last

theorem congr {x : Eff ω α} {post : α → Prop} (given : Gives x post) {f g : α → Eff ω β}
    (tail : ∀ a, post a → f a = g a) : x >>= f = x >>= g :=
  funext fun w => bindCongrAt fun a v run => congrFun (tail a (given w a v run)) v

theorem weaken {x : Eff ω α} {strong post : α → Prop} (given : Gives x strong)
    (implies : ∀ a, strong a → post a) : Gives x post := fun w a w' run =>
  implies a (given w a w' run)

end Gives

def Ensures (x : Eff ω α) (post : α → Prop) : Prop :=
  ∀ w exit w', x w = (exit, w') → exit ≠ .exhausted → ∃ a, exit = .done a ∧ post a

namespace Ensures

theorem done {a : α} {post : α → Prop} (holds : post a) : Ensures (Eff.done a : Eff ω α) post := by
  intro w exit w' run ended
  cases run
  exact ⟨a, rfl, holds⟩

theorem exhausted {post : α → Prop} : Ensures (Eff.exhausted : Eff ω α) post := by
  intro w exit w' run ended
  cases run
  exact absurd rfl ended

theorem modify (f : ω → ω) : Ensures (Eff.modify f) fun _ => True := by
  intro w exit w' run ended
  cases run
  exact ⟨(), rfl, trivial⟩

theorem attempt (x : Eff ω α) : Ensures x.attempt fun _ => True := by
  intro w exit w' run ended
  unfold Eff.attempt at run
  rcases head : x w with ⟨a | fault | _, v⟩ <;> rw [head] at run <;> cases run
  · exact ⟨_, rfl, trivial⟩
  · exact ⟨_, rfl, trivial⟩
  · exact absurd rfl ended

theorem bind {x : Eff ω α} {f : α → Eff ω β} {mid : α → Prop} {post : β → Prop}
    (head : Ensures x mid) (tail : ∀ a, mid a → Ensures (f a) post) : Ensures (x >>= f) post := by
  intro w exit w' run ended
  rcases bindEnds run ended with ⟨a, v, first, last⟩ | ⟨fault, raised, -⟩
  · obtain ⟨b, same, holds⟩ := head _ _ _ first nofun
    cases same
    exact tail a holds _ _ _ last ended
  · obtain ⟨b, same, -⟩ := head _ _ _ raised nofun
    cases same

end Ensures
end ParseKit.Eff
