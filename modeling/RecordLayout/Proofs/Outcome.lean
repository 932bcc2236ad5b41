import Mathlib
import RecordLayout.Custom

/-!
# Outcomes of operations

Operations of readers, writers and passes are functions from a state to a result. These lemmas say
what they do at one state, so that a proof takes an operation apart, or runs it, step by step.
-/

namespace RecordLayout

section

variable {ε σ α β : Type}

/-- Two operations in a row succeed exactly when the first does and then the second. -/
theorem bind_eq_ok {m : EStateM ε σ α} {f : α → EStateM ε σ β} {s s' : σ} {b : β} :
    (m >>= f) s = .ok b s' ↔ ∃ a s₁, m s = .ok a s₁ ∧ f a s₁ = .ok b s' := by
  simp only [bind, EStateM.bind]
  cases m s with
  | ok a s₁ =>
    constructor
    · exact fun h => ⟨a, s₁, rfl, h⟩
    · rintro ⟨_, _, ⟨⟩, h⟩
      exact h
  | error e s₁ => simp

/-- An operation behind one that succeeds. -/
theorem bind_of_ok {m : EStateM ε σ α} {f : α → EStateM ε σ β} {s s₁ : σ} {a : α}
    (h : m s = .ok a s₁) : (m >>= f) s = f a s₁ := by
  simp only [bind, EStateM.bind, h]

/-- A failure ends the operations. -/
theorem bind_of_error {m : EStateM ε σ α} {f : α → EStateM ε σ β} {s s₁ : σ} {e : ε}
    (h : m s = .error e s₁) : (m >>= f) s = .error e s₁ := by
  simp only [bind, EStateM.bind, h]

/-- A mapped computation gives the image of what the computation gives. -/
theorem map_eq_ok {m : EStateM ε σ α} {f : α → β} {s s' : σ} {b : β} :
    (f <$> m) s = .ok b s' ↔ ∃ a, m s = .ok a s' ∧ f a = b := by
  simp only [Functor.map, EStateM.map]
  cases h : m s with
  | ok a s₁ =>
    simp only [EStateM.Result.ok.injEq]
    constructor
    · rintro ⟨rfl, rfl⟩
      exact ⟨a, ⟨rfl, rfl⟩, rfl⟩
    · rintro ⟨_, ⟨rfl, rfl⟩, rfl⟩
      exact ⟨rfl, rfl⟩
  | error e s₁ => simp

theorem map_of_ok {m : EStateM ε σ α} {f : α → β} {s s₁ : σ} {a : α} (h : m s = .ok a s₁) :
    (f <$> m) s = .ok (f a) s₁ := by
  simp only [Functor.map, EStateM.map, h]

theorem map_of_error {m : EStateM ε σ α} {f : α → β} {s s₁ : σ} {e : ε}
    (h : m s = .error e s₁) : (f <$> m) s = .error e s₁ := by
  simp only [Functor.map, EStateM.map, h]

@[simp] theorem pure_apply (a : α) (s : σ) : (pure a : EStateM ε σ α) s = .ok a s := rfl

@[simp] theorem throw_apply (e : ε) (s : σ) :
    (throw e : EStateM ε σ α) s = .error e s := rfl

@[simp] theorem get_apply (s : σ) : (get : EStateM ε σ σ) s = .ok s s := rfl

@[simp] theorem set_apply (s s' : σ) : (set s' : EStateM ε σ PUnit) s = .ok .unit s' := rfl

@[simp] theorem modify_apply (f : σ → σ) (s : σ) :
    (modify f : EStateM ε σ PUnit) s = .ok .unit (f s) := rfl

end

theorem settle_eq_ok {σ α : Type} {x : Except Error α} {s s' : σ} {a : α} :
    settle x s = .ok a s' ↔ x = .ok a ∧ s' = s := by
  cases x with
  | ok b =>
    simp only [settle, pure_apply, EStateM.Result.ok.injEq, Except.ok.injEq]
    constructor
    · rintro ⟨rfl, rfl⟩
      exact ⟨rfl, rfl⟩
    · rintro ⟨rfl, rfl⟩
      exact ⟨rfl, rfl⟩
  | error e => simp [settle]

theorem except_bind_eq_ok {ε α β : Type} {m : Except ε α} {f : α → Except ε β} {b : β} :
    (m >>= f) = .ok b ↔ ∃ a, m = .ok a ∧ f a = .ok b := by
  cases m <;> simp [bind, Except.bind]

theorem except_bind_eq_error {ε α β : Type} {m : Except ε α} {f : α → Except ε β} {e : ε} :
    (m >>= f) = .error e ↔ m = .error e ∨ ∃ a, m = .ok a ∧ f a = .error e := by
  cases m <;> simp [bind, Except.bind]

end RecordLayout
