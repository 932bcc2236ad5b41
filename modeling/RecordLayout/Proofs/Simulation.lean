import RecordLayout.Proofs.Outcome

/-!
# Simulation

Two runs of one operation from related states take the same course: what the first one gives, the
second one gives too, and the states stay related. An error of the first run may be one that tells
nothing about the second, such as the end of a stream that is longer there.
-/

namespace RecordLayout

/-- What the operation gives in a state it gives in every state related to it, unless it has an error
that tells nothing about the other run. -/
def Foretells {σ α : Type} (lost : Error → Prop) (R : σ → σ → Prop) (m : EStateM Error σ α) :
    Prop :=
  ∀ s s', R s s' → match m s with
    | .ok x t => ∃ t', m s' = .ok x t' ∧ R t t'
    | .error e _ => lost e ∨ ∃ t', m s' = .error e t'

namespace Foretells

variable {σ α β : Type} {lost : Error → Prop} {R : σ → σ → Prop}

theorem pure (a : α) : Foretells lost R (Pure.pure a : EStateM Error σ α) :=
  fun _ s' h => ⟨s', rfl, h⟩

theorem throw (e : Error) : Foretells lost R (MonadExcept.throw e : EStateM Error σ α) :=
  fun _ s' _ => .inr ⟨s', rfl⟩

/-- What follows an operation matters only for the results that the operation can give. -/
theorem bind_of_ok {m : EStateM Error σ α} {g : α → EStateM Error σ β} (hm : Foretells lost R m)
    (hg : ∀ a s t, m s = .ok a t → Foretells lost R (g a)) : Foretells lost R (m >>= g) := by
  intro s s' h
  have hfirst := hm s s' h
  cases hs : m s with
  | ok a t =>
    rw [hs] at hfirst
    obtain ⟨t', hs', ht⟩ := hfirst
    rw [RecordLayout.bind_of_ok hs, RecordLayout.bind_of_ok hs']
    exact hg a s t hs t t' ht
  | error e t =>
    rw [hs] at hfirst
    rw [bind_of_error hs]
    rcases hfirst with hlost | ⟨t', hs'⟩
    · exact .inl hlost
    · exact .inr ⟨t', bind_of_error hs'⟩

theorem bind {m : EStateM Error σ α} {g : α → EStateM Error σ β} (hm : Foretells lost R m)
    (hg : ∀ a, Foretells lost R (g a)) : Foretells lost R (m >>= g) :=
  hm.bind_of_ok fun a _ _ _ => hg a

/-- An operation that begins with a look at the state. -/
theorem get_bind {g : σ → EStateM Error σ α}
    (h : ∀ s s', R s s' → match g s s with
      | .ok x t => ∃ t', g s' s' = .ok x t' ∧ R t t'
      | .error e _ => lost e ∨ ∃ t', g s' s' = .error e t') :
    Foretells lost R (get >>= g) := h

theorem modify {u : σ → σ} (h : ∀ s s', R s s' → R (u s) (u s')) :
    Foretells lost R (modify u : EStateM Error σ PUnit) :=
  fun s s' hs => ⟨u s', rfl, h s s' hs⟩

end Foretells

end RecordLayout
