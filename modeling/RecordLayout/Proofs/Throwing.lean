import RecordLayout.Pass.Basic
import RecordLayout.Proofs.Outcome

/-!
# What an operation may throw

An operation that is made of others has no errors but theirs. The parameters of a declaration are
computed by the same operations in both passes, and their errors are of a sort that no stream and no
value that is supplied can cause.
-/

namespace RecordLayout

/-- Every error of the operation is of this sort. -/
def Throws {σ α : Type} (sort : Error → Prop) (m : EStateM Error σ α) : Prop :=
  ∀ s e s', m s = .error e s' → sort e

namespace Throws

variable {σ α β : Type} {sort : Error → Prop}

theorem pure (a : α) : Throws sort (Pure.pure a : EStateM Error σ α) := by
  rintro s e s' ⟨⟩

theorem mono {sort' : Error → Prop} {m : EStateM Error σ α} (h : Throws sort m)
    (hsort : ∀ e, sort e → sort' e) : Throws sort' m :=
  fun s e s' hrun => hsort e (h s e s' hrun)

theorem throw {e : Error} (h : sort e) : Throws sort (MonadExcept.throw e : EStateM Error σ α) := by
  rintro s e s' ⟨⟩
  exact h

/-- Operations one behind the other have the errors of both. -/
theorem bind {m : EStateM Error σ α} {g : α → EStateM Error σ β} (hm : Throws sort m)
    (hg : ∀ a, Throws sort (g a)) : Throws sort (m >>= g) := by
  intro s e s' h
  cases hs : m s with
  | ok a t =>
    rw [bind_of_ok hs] at h
    exact hg a t e s' h
  | error e' t =>
    rw [bind_of_error hs] at h
    cases h
    exact hm _ _ _ hs

theorem map {m : EStateM Error σ α} (g : α → β) (hm : Throws sort m) : Throws sort (g <$> m) := by
  rw [← bind_pure_comp]
  exact hm.bind fun _ => .pure _

theorem modify (u : σ → σ) : Throws sort (modify u : EStateM Error σ PUnit) := by
  rintro s e s' ⟨⟩

theorem set (s : σ) : Throws sort (set s : EStateM Error σ PUnit) := by
  rintro s e s' ⟨⟩

theorem get_bind {g : σ → EStateM Error σ α} (h : ∀ s, Throws sort (g s)) :
    Throws sort (get >>= g) :=
  fun s e s' hrun => h s s e s' hrun

theorem settle {x : Except Error α} (h : ∀ e, x = .error e → sort e) :
    Throws sort (settle x : EStateM Error σ α) := by
  cases x with
  | ok a => exact pure a
  | error e => exact throw (h e rfl)

end Throws

/-! ## Parameters of a pass -/

/-- The error says that a parameter of a declaration has no value, or one that is out of range. -/
def Error.IsOfParameter : Error → Prop
  | .zeroDivisor _ | .noValueYet _ | .negative _ _ | .badAlignment _ | .bitWidth _ | .noResolver _
  | .unresolved _ => True
  | _ => False

/-- The value of an expression is a parameter. -/
theorem Expr.isOfParameter_of_evalIn {env : Expr.Env} {root e : Expr} {error : Error}
    (h : evalIn env root e = .error error) : error.IsOfParameter := by
  induction e with
  | const v => cases h
  | counter => cases h
  | field info =>
    simp only [evalIn] at h
    split at h <;> cases h
    trivial
  | external name =>
    simp only [evalIn, Env.external] at h
    split at h
    · cases h
      trivial
    · split at h <;> cases h
      trivial
  | unary op e ih =>
    rcases except_bind_eq_error.mp h with h | ⟨v, -, h⟩
    · exact ih h
    · cases h
  | binary op l r ihl ihr =>
    rcases except_bind_eq_error.mp h with h | ⟨a, -, h⟩
    · exact ihl h
    · rcases except_bind_eq_error.mp h with h | ⟨b, -, h⟩
      · exact ihr h
      · split at h <;> cases h
        trivial

namespace PassM

variable {δ : Type} (ctx : PassContext)

/-- An operation of the stream has the same errors in a pass. -/
theorem throws_onStream {α : Type} {sort : Error → Prop} {m : EStateM Error δ α}
    (h : Throws sort m) : Throws sort (onStream m) := by
  intro s e s' hrun
  unfold onStream at hrun
  cases hs : m s.stream with
  | ok x stream =>
    rw [hs] at hrun
    cases hrun
  | error e' stream =>
    rw [hs] at hrun
    cases hrun
    exact h _ _ _ hs

/-- To remember a value is no reason to fail. -/
theorem throws_register {sort : Error → Prop} (info : Option FieldInfo) (v : Value) :
    Throws sort (register info v : PassM δ Unit) := by
  unfold register
  split
  · exact .modify _
  · exact .pure _

/-- A number that must not be negative may be. -/
theorem throws_nonNegative (quantity : Quantity) (v : Int64) :
    Throws Error.IsOfParameter (nonNegative ctx quantity v : PassM δ Nat) := by
  unfold nonNegative
  split
  · exact .pure _
  · split
    · exact .pure _
    · exact .throw trivial

variable [ByteCounter δ]

theorem throws_eval (e : Expr) :
    Throws Error.IsOfParameter (eval ctx e : PassM δ Int64) := by
  intro s error s' h
  simp only [eval] at h
  split at h <;> cases h
  exact Expr.isOfParameter_of_evalIn ‹_›

theorem throws_amount (a : Amount) :
    Throws Error.IsOfParameter (amount ctx a : PassM δ Int64) := by
  cases a with
  | const n => exact .pure _
  | computed e => exact throws_eval ctx e

theorem throws_arrayCount (length : Length) :
    Throws Error.IsOfParameter (arrayCount ctx length : PassM δ (Option Nat)) := by
  cases length with
  | const n => exact .pure _
  | computed e => exact (throws_eval ctx e).bind fun v => (throws_nonNegative ctx _ v).map some
  | unbounded => exact .pure _

theorem throws_bitWidth (type : ElementType) :
    Throws Error.IsOfParameter (bitWidth ctx type : PassM δ Nat) := by
  cases type with
  | bit width =>
    refine (throws_amount ctx width).bind fun w => ?_
    split
    · exact .pure _
    · exact .throw trivial
  | fixed _ | text | custom _ _ => exact .pure _

theorem throws_alignment (a : Amount) :
    Throws Error.IsOfParameter (alignment ctx a : PassM δ Nat) := by
  refine (throws_amount ctx a).bind fun n => ?_
  split
  · exact (Throws.throw trivial).bind fun _ => .pure _
  · exact .pure _

theorem throws_skipCount (a : Amount) :
    Throws Error.IsOfParameter (skipCount ctx a : PassM δ Nat) :=
  (throws_amount ctx a).bind fun n => throws_nonNegative ctx _ n

/-- The parameter of a custom type is one like any other. -/
theorem throws_customField (head : Header) (use : CustomUse) (extra : Option Amount) :
    Throws Error.IsOfParameter (customField ctx head use extra : PassM δ CustomField) := by
  cases extra with
  | none => exact (Throws.pure _).bind fun _ => .pure _
  | some a => exact ((throws_amount ctx a).map some).bind fun _ => .pure _

end PassM

end RecordLayout
