import RecordLayout.Layout.Kind
import RecordLayout.Proofs.Bits.Mirror

/-!
# Checked operations

An operation that works on tables and machine words relies on more than what it reports as errors:
that the index it looks up is in the table, that the amount it shifts a word by is below the number
of its bits, that what was announced is there. A checked operation stops with a fault where it would
rely on something that does not hold.

An operation is *safe* in a checked form if the checked one never finds a fault: from every state
with some property it does exactly what the plain one does, and the state it leaves, in success and
in failure, has the property again. The checked operation may work on a state that holds more.
-/

namespace RecordLayout

/-- Something relied upon that does not hold. -/
inductive Fault where
  /-- An index is not in its table. -/
  | index (i size : Nat)
  /-- A word of so many bits is shifted by as many or more. -/
  | shift (amount bits : Nat)
  /-- A structure has no closing brace. -/
  | noClosing (index : Nat)
  /-- A custom type has no declaration or no handler. -/
  | noHandler (number : Nat)
  /-- Values of this kind of declaration are not read or written. -/
  | noValue (kind : Kind)
  /-- The value in the form of its type is no scalar. -/
  | notScalar (v : Value)

/-- Why a checked operation stops. -/
inductive Stopped where
  | error (e : Error)
  | fault (f : Fault)

/-- An operation that checks what it relies on. -/
abbrev CheckedM (τ : Type) := EStateM Stopped τ

/-- Stops with a fault. -/
def fault {τ α : Type} (f : Fault) : CheckedM τ α := throw (.fault f)

/-- Goes on if the amount is below the number of bits. -/
def checkShift {τ : Type} (amount bits : Nat) : CheckedM τ Unit :=
  if amount < bits then pure () else fault (.shift amount bits)

/-- The entry of a table. -/
def entry {τ α : Type} (table : List α) (i : Nat) : CheckedM τ α :=
  match table[i]? with
  | some x => pure x
  | none => fault (.index i table.length)

/-- An error of a plain operation. -/
def raise {τ α : Type} (e : Error) : CheckedM τ α := throw (.error e)

/-- A result as a checked operation. -/
def settled {τ α : Type} : Except Error α → CheckedM τ α
  | .ok x => pure x
  | .error e => raise e

/-- The result of a plain operation among those of checked ones. -/
def raised {σ α : Type} : EStateM.Result Error σ α → EStateM.Result Stopped σ α
  | .ok x s => .ok x s
  | .error e s => .error (.error e) s

/-- The plain operation as a checked one, where there is nothing to check. -/
def plainly {σ α : Type} (m : EStateM Error σ α) : CheckedM σ α := fun s => raised (m s)

/-- The result of a checked operation together with the state it leaves, if it finds no fault. -/
def checkedOutcome {τ α : Type} (w : CheckedM τ α) : CheckedM τ (Except Error α) := fun t =>
  match w t with
  | .ok x t => .ok (.ok x) t
  | .error (.error e) t => .ok (.error e) t
  | .error (.fault f) t => .error (.fault f) t

/-- The state that an operation leaves. -/
def stateOf {ε σ α : Type} : EStateM.Result ε σ α → σ
  | .ok _ s => s
  | .error _ s => s

/-- What an operation results in. -/
def resultOf {ε σ α : Type} : EStateM.Result ε σ α → Except ε α
  | .ok x _ => .ok x
  | .error e _ => .error e

/-- The operation keeps a property of the state, whether it succeeds or fails. -/
def Retains {ε σ α : Type} (P : σ → Prop) (m : EStateM ε σ α) : Prop :=
  ∀ s, P s → P (stateOf (m s))

namespace Retains

variable {ε σ α β : Type} {P : σ → Prop}

theorem pure (a : α) : Retains P (Pure.pure a : EStateM ε σ α) := fun _ h => h

theorem modify {u : σ → σ} (h : ∀ s, P s → P (u s)) :
    Retains P (modify u : EStateM ε σ PUnit) := h

theorem throw (e : ε) : Retains P (MonadExcept.throw e : EStateM ε σ α) := fun _ h => h

/-- A property that two operations retain, both of them retain together. -/
theorem bind {m : EStateM ε σ α} {g : α → EStateM ε σ β} (hm : Retains P m)
    (hg : ∀ a, Retains P (g a)) : Retains P (m >>= g) := by
  intro s hs
  have hkeep := hm s hs
  cases h : m s with
  | ok a s₁ =>
    rw [h] at hkeep
    rw [bind_of_ok h]
    exact hg a s₁ hkeep
  | error e s₁ =>
    rw [h] at hkeep
    rw [bind_of_error h]
    exact hkeep

/-- An operation that begins with a look at the state. -/
theorem get_bind {g : σ → EStateM ε σ α} (h : ∀ s, P s → P (stateOf (g s s))) :
    Retains P (get >>= g) := h

/-- An operation that gives its error as a result retains what it did before. -/
theorem outcome {m : EStateM Error σ α} (h : Retains P m) : Retains P (outcome m) := by
  intro s hs
  have hm := h s hs
  unfold RecordLayout.outcome
  cases hr : m s <;> rw [hr] at hm <;> exact hm

theorem settle (x : Except Error α) : Retains P (settle x : EStateM Error σ α) := by
  cases x <;> exact fun _ h => h

end Retains

/-- The checked operation finds no fault from states with the property: it does what the plain one
does, and the property is kept. -/
def Safe {σ τ α : Type} (P : σ → Prop) (f : τ → σ) (m : EStateM Error σ α) (w : CheckedM τ α) :
    Prop :=
  ∀ t, P (f t) → onState f (w t) = raised (m (f t)) ∧ P (stateOf (m (f t)))

/-- A checked operation with the result of the operation succeeded with it. -/
theorem ok_of_onState {σ τ α : Type} {f : τ → σ} {r : EStateM.Result Stopped τ α} {a : α} {s : σ}
    (h : onState f r = raised (.ok a s)) : ∃ t, r = .ok a t ∧ f t = s := by
  cases r with
  | ok b t =>
    cases h
    exact ⟨t, rfl, rfl⟩
  | error e t => cases h

/-- A checked operation with the error of the operation failed with it. -/
theorem error_of_onState {σ τ α : Type} {f : τ → σ} {r : EStateM.Result Stopped τ α} {e : Error}
    {s : σ} (h : onState f r = raised (.error e s)) : ∃ t, r = .error (.error e) t ∧ f t = s := by
  cases r with
  | ok b t => cases h
  | error e t =>
    cases h
    exact ⟨t, rfl, rfl⟩

namespace Safe

variable {σ τ α β : Type} {P : σ → Prop} {f : τ → σ}

theorem pure (a : α) : Safe P f (Pure.pure a) (Pure.pure a) := fun _ h => ⟨rfl, h⟩

theorem throw (e : Error) : Safe P f (MonadExcept.throw e : EStateM Error σ α) (raise e) :=
  fun _ h => ⟨rfl, h⟩

/-- Where the plain operation succeeds, so does the checked one. -/
theorem eq_ok {m : EStateM Error σ α} {w : CheckedM τ α} {t : τ} {a : α} {s : σ}
    (h : Safe P f m w) (ht : P (f t)) (hm : m (f t) = .ok a s) :
    ∃ t', w t = .ok a t' ∧ f t' = s ∧ P s := by
  obtain ⟨hw, hkeep⟩ := h t ht
  rw [hm] at hw hkeep
  obtain ⟨t', hwt, hs⟩ := ok_of_onState hw
  exact ⟨t', hwt, hs, hkeep⟩

/-- Where the checked operation succeeds, so does the plain one. -/
theorem of_ok {m : EStateM Error σ α} {w : CheckedM τ α} {t t' : τ} {a : α} (h : Safe P f m w)
    (ht : P (f t)) (hw : w t = .ok a t') : m (f t) = .ok a (f t') := by
  obtain ⟨hm, -⟩ := h t ht
  rw [hw] at hm
  cases hs : m (f t) with
  | ok b s =>
    rw [hs] at hm
    cases hm
    rfl
  | error e s =>
    rw [hs] at hm
    cases hm

/-- Where the plain operation fails, the checked one fails with the same error. -/
theorem eq_error {m : EStateM Error σ α} {w : CheckedM τ α} {t : τ} {e : Error} {s : σ}
    (h : Safe P f m w) (ht : P (f t)) (hm : m (f t) = .error e s) :
    ∃ t', w t = .error (.error e) t' ∧ f t' = s ∧ P s := by
  obtain ⟨hw, hkeep⟩ := h t ht
  rw [hm] at hw hkeep
  obtain ⟨t', hwt, hs⟩ := error_of_onState hw
  exact ⟨t', hwt, hs, hkeep⟩

/-- The second operation has to be safe behind the results of the first only. -/
theorem bind_of_ok {m : EStateM Error σ α} {w : CheckedM τ α} {g : α → EStateM Error σ β}
    {v : α → CheckedM τ β} (hm : Safe P f m w)
    (hg : ∀ a s s', m s = .ok a s' → Safe P f (g a) (v a)) : Safe P f (m >>= g) (w >>= v) := by
  intro t ht
  cases hs : m (f t) with
  | ok a s₁ =>
    obtain ⟨t₁, hwt, rfl, ht₁⟩ := hm.eq_ok ht hs
    rw [RecordLayout.bind_of_ok hs, RecordLayout.bind_of_ok hwt]
    exact hg a _ _ hs t₁ ht₁
  | error e s₁ =>
    obtain ⟨t₁, hwt, rfl, ht₁⟩ := hm.eq_error ht hs
    rw [bind_of_error hs, bind_of_error hwt]
    exact ⟨rfl, ht₁⟩

/-- Two safe operations in a row are safe, as the first leaves a state that the second may rely on.
-/
theorem bind {m : EStateM Error σ α} {w : CheckedM τ α} {g : α → EStateM Error σ β}
    {v : α → CheckedM τ β} (hm : Safe P f m w) (hg : ∀ a, Safe P f (g a) (v a)) :
    Safe P f (m >>= g) (w >>= v) := hm.bind_of_ok fun a _ _ _ => hg a

theorem map {m : EStateM Error σ α} {w : CheckedM τ α} (g : α → β) (hm : Safe P f m w) :
    Safe P f (g <$> m) (g <$> w) := by
  have h : Safe P f (m >>= fun a => Pure.pure (g a)) (w >>= fun a => Pure.pure (g a)) :=
    hm.bind fun _ => Safe.pure _
  rwa [bind_pure_comp, bind_pure_comp] at h

/-- An operation that begins with a look at the state. -/
theorem get_bind {g : σ → EStateM Error σ α} {v : τ → CheckedM τ α}
    (h : ∀ t, P (f t) →
      onState f (v t t) = raised (g (f t) (f t)) ∧ P (stateOf (g (f t) (f t)))) :
    Safe P f (get >>= g) (get >>= v) := h

theorem modify {u : σ → σ} {u' : τ → τ} (hu : ∀ t, f (u' t) = u (f t)) (hkeep : ∀ s, P s → P (u s)) :
    Safe P f (modify u : EStateM Error σ PUnit) (modify u') := by
  intro t ht
  exact ⟨congrArg (EStateM.Result.ok PUnit.unit) (hu t), hkeep _ ht⟩

theorem settle (x : Except Error α) :
    Safe P f (RecordLayout.settle x) (settled x) := by
  cases x with
  | ok a => exact Safe.pure a
  | error e => exact Safe.throw e

theorem outcome {m : EStateM Error σ α} {w : CheckedM τ α} (hm : Safe P f m w) :
    Safe P f (RecordLayout.outcome m) (checkedOutcome w) := by
  intro t ht
  cases hs : m (f t) with
  | ok a s₁ =>
    obtain ⟨t₁, hwt, rfl, ht₁⟩ := hm.eq_ok ht hs
    simp only [RecordLayout.outcome, checkedOutcome, hs, hwt]
    exact ⟨rfl, ht₁⟩
  | error e s₁ =>
    obtain ⟨t₁, hwt, rfl, ht₁⟩ := hm.eq_error ht hs
    simp only [RecordLayout.outcome, checkedOutcome, hs, hwt]
    exact ⟨rfl, ht₁⟩

/-- Both operations work on the same state. -/
theorem here {m : EStateM Error σ α} {w : CheckedM σ α}
    (h : ∀ s, P s → w s = raised (m s) ∧ P (stateOf (m s))) : Safe P id m w := by
  intro s hs
  obtain ⟨hw, hkeep⟩ := h s hs
  refine ⟨?_, hkeep⟩
  rw [hw]
  change onState id (raised (m s)) = raised (m s)
  cases m s <;> rfl

/-- A plain operation that keeps the property. -/
theorem plainly {m : EStateM Error σ α} (h : Retains P m) : Safe P id m (plainly m) :=
  here fun s hs => ⟨rfl, h s hs⟩

/-- A shift by an amount below the number of bits. -/
theorem checkShift {amount bits : Nat} {m : EStateM Error σ α} {w : CheckedM τ α}
    (h : amount < bits) (hw : Safe P f m w) :
    Safe P f m (RecordLayout.checkShift amount bits >>= fun _ => w) := by
  unfold RecordLayout.checkShift
  rwa [if_pos h, pure_bind]

end Safe

end RecordLayout
