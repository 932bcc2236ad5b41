import RecordLayout.Proofs.Pass.Parts
import RecordLayout.Proofs.Simulation

/-!
# Passes over related streams

Two passes over streams that count the same bytes give every expression the same value, and so every
width, length and count.
-/

namespace RecordLayout

/-- The streams are related and the declarations have the same values. -/
def PassState.Along {δ : Type} (R : δ → δ → Prop) (s s' : PassState δ) : Prop :=
  R s.stream s'.stream ∧ s'.numbers = s.numbers

namespace PassM

variable {δ α : Type} {R : δ → δ → Prop} {lost : Error → Prop} {ctx : PassContext}

theorem foretells_onStream {m : EStateM Error δ α} (h : Foretells lost R m) :
    Foretells lost (PassState.Along R) (onStream m) := by
  intro s s' hs
  have hm := h s.stream s'.stream hs.1
  simp only [onStream]
  cases hrun : m s.stream with
  | ok x t =>
    rw [hrun] at hm
    obtain ⟨t', hrun', ht⟩ := hm
    rw [hrun']
    exact ⟨_, rfl, ht, hs.2⟩
  | error e t =>
    rw [hrun] at hm
    rcases hm with hlost | ⟨t', hrun'⟩
    · exact .inl hlost
    · rw [hrun']
      exact .inr ⟨_, rfl⟩

theorem foretells_register (info : Option FieldInfo) (v : Value) :
    Foretells lost (PassState.Along R) (register info v : PassM δ Unit) := by
  unfold register
  split
  · exact .modify fun s s' hs => ⟨hs.1, by rw [hs.2]⟩
  · exact .pure _

variable [ByteCounter δ]
  (hcount : ∀ stream stream', R stream stream' → ByteCounter.count stream' = ByteCounter.count stream)
include hcount

/-- What an operation computes from the numbers, the byte counter and the resolver. -/
theorem foretells_of_computes {m : PassM δ α} {x : Expr.Env → Except Error α}
    (h : ∀ s, Computes m s (x (env ctx s))) : Foretells lost (PassState.Along R) m := by
  intro s s' hs
  have henv : env ctx s' = env ctx s := by
    rw [env, env, hcount _ _ hs.1, hs.2]
  obtain ⟨questions, hrun⟩ := h s
  obtain ⟨questions', hrun'⟩ := h s'
  rw [henv] at hrun'
  rw [hrun, hrun']
  cases x (env ctx s) with
  | ok a => exact ⟨_, rfl, hs⟩
  | error e => exact .inr ⟨_, rfl⟩

/-- A pass over related streams takes the same course in all that is not about the stream. -/
theorem foretells_parts : Parts ctx fun m : PassM δ _ => Foretells lost (PassState.Along R) m where
  pure := .pure
  throw := .throw
  bind_of_ok := .bind_of_ok
  eval e := foretells_of_computes (x := fun env => e.eval env) hcount fun s => computes_eval ctx s e
  register := foretells_register

end PassM

end RecordLayout
