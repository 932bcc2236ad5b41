import RecordLayout.Pass.Basic
import RecordLayout.Proofs.Outcome

/-!
# Parameters of a pass

Widths, lengths, counts and computed values depend on three things: the values of the numeric
declarations so far, the byte counter, and the resolver. Both passes compute them with the same
operations, which leave everything alone but the list of questions to the resolver; so a parameter
has the same value in both wherever these three agree.
-/

namespace RecordLayout

/-- The value of a parameter. -/
def Amount.value (env : Expr.Env) : Amount → Except Error Int64
  | const n => .ok (.ofNat n.toNat)
  | computed e => e.eval env

namespace PassContext

/-- A quantity that must not be negative, or counts as zero if the options say so. -/
def nonNegative (ctx : PassContext) (quantity : Quantity) (value : Int64) : Except Error Nat :=
  if 0 ≤ value then .ok value.toInt.toNat
  else if ctx.options.clampNegative then .ok 0
  else .error (.negative quantity value)

/-- The length of an array; none if it goes to the end of the stream. -/
def count (ctx : PassContext) (env : Expr.Env) : Length → Except Error (Option Nat)
  | .const n => .ok (some n.toNat)
  | .computed e => do
    let v ← e.eval env
    some <$> ctx.nonNegative .arrayLength v
  | .unbounded => .ok none

/-- Only an unbounded array has no length. -/
theorem eq_unbounded_of_count {ctx : PassContext} {env : Expr.Env} {l : Length}
    (h : ctx.count env l = .ok none) : l = .unbounded := by
  cases l with
  | const n => cases h
  | unbounded => rfl
  | computed e =>
    obtain ⟨v, -, h⟩ := except_bind_eq_ok.mp h
    cases hn : ctx.nonNegative .arrayLength v with
    | error e =>
      rw [hn] at h
      cases h
    | ok n =>
      rw [hn] at h
      cases h

/-- The number of bytes that a skip passes over. -/
def skipped (ctx : PassContext) (env : Expr.Env) (a : Amount) : Except Error Nat := do
  let n ← a.value env
  ctx.nonNegative .skipCount n

end PassContext

/-- The bit width of an element; zero for types that have no such parameter. -/
def ElementType.width (env : Expr.Env) : ElementType → Except Error Nat
  | bit width => do
    let w ← width.value env
    if 1 ≤ w ∧ w ≤ 8 then pure w.toInt.toNat else .error (.bitWidth w)
  | _ => .ok 0

/-- The number whose multiples an alignment goes to. -/
def Amount.alignment (env : Expr.Env) (a : Amount) : Except Error Nat := do
  let n ← a.value env
  if n < 1 then .error (.badAlignment n)
  else pure n.toInt.toNat

namespace PassM

variable {δ α β : Type}

/-- The operation gives a result that is known beforehand and only puts questions to the resolver.
-/
def Computes (m : PassM δ α) (s : PassState δ) (x : Except Error α) : Prop :=
  ∃ questions, m s = settle x { s with asked := s.asked ++ questions }

theorem computes_pure (a : α) (s : PassState δ) : Computes (pure a) s (.ok a) :=
  ⟨[], by simp [settle]⟩

theorem computes_throw (e : Error) (s : PassState δ) :
    Computes (throw e : PassM δ α) s (.error e) :=
  ⟨[], by simp [settle]⟩

/-- Computations one behind another compute the sequence, and the second sees the questions of the
first. -/
theorem Computes.bind {m : PassM δ α} {f : α → PassM δ β} {s : PassState δ} {x : Except Error α}
    {g : α → Except Error β} (hm : Computes m s x)
    (hf : ∀ a questions, Computes (f a) { s with asked := s.asked ++ questions } (g a)) :
    Computes (m >>= f) s (x >>= g) := by
  obtain ⟨first, hm⟩ := hm
  cases x with
  | error e => exact ⟨first, bind_of_error hm⟩
  | ok a =>
    obtain ⟨second, hf⟩ := hf a first
    refine ⟨first ++ second, ?_⟩
    rw [bind_of_ok hm, hf]
    simp only [List.append_assoc]
    rfl

theorem Computes.map {m : PassM δ α} {s : PassState δ} {x : Except Error α} (f : α → β)
    (hm : Computes m s x) : Computes (f <$> m) s (f <$> x) := by
  obtain ⟨questions, hm⟩ := hm
  refine ⟨questions, ?_⟩
  cases x with
  | error e => exact map_of_error hm
  | ok a => exact map_of_ok hm

/-- The operation succeeds with the known result. -/
theorem Computes.of_ok {m : PassM δ α} {s : PassState δ} {x : Except Error α} {a : α}
    (hm : Computes m s x) (hx : x = .ok a) :
    ∃ questions, m s = .ok a { s with asked := s.asked ++ questions } := by
  rw [hx] at hm
  exact hm

/-- The result of an operation that succeeded is the known one. -/
theorem Computes.eq_ok {m : PassM δ α} {s s' : PassState δ} {x : Except Error α} {a : α}
    (hm : Computes m s x) (h : m s = .ok a s') :
    x = .ok a ∧ ∃ questions, s' = { s with asked := s.asked ++ questions } := by
  obtain ⟨questions, hm⟩ := hm
  rw [hm] at h
  obtain ⟨hx, hs⟩ := settle_eq_ok.mp h
  exact ⟨hx, questions, hs⟩

/-- A number that must not be negative is refused or taken for zero, as the options say. -/
theorem computes_nonNegative (ctx : PassContext) (s : PassState δ) (quantity : Quantity)
    (value : Int64) :
    Computes (nonNegative ctx quantity value) s (ctx.nonNegative quantity value) := by
  unfold nonNegative PassContext.nonNegative
  split
  · exact computes_pure _ s
  · split
    · exact computes_pure _ s
    · exact computes_throw _ s

variable [ByteCounter δ] (ctx : PassContext) (s : PassState δ)

theorem computes_eval (e : Expr) : Computes (eval ctx e) s (e.eval (env ctx s)) := by
  refine ⟨e.asked (env ctx s), ?_⟩
  simp only [eval]
  cases e.eval (env ctx s) <;> rfl

theorem computes_amount (a : Amount) : Computes (amount ctx a) s (a.value (env ctx s)) := by
  cases a with
  | const n => exact computes_pure _ s
  | computed e => exact computes_eval ctx s e

/-- The length of an array is the count in that environment. -/
theorem computes_arrayCount (l : Length) :
    Computes (arrayCount ctx l) s (ctx.count (env ctx s) l) := by
  cases l with
  | const n => exact computes_pure _ s
  | computed e =>
    exact (computes_eval ctx s e).bind fun v _ => (computes_nonNegative ctx _ _ v).map some
  | unbounded => exact computes_pure _ s

theorem computes_bitWidth (type : ElementType) :
    Computes (bitWidth ctx type) s (type.width (env ctx s)) := by
  cases type with
  | bit width =>
    refine (computes_amount ctx s width).bind fun w _ => ?_
    split
    · exact computes_pure _ _
    · exact computes_throw _ _
  | fixed type => exact computes_pure _ s
  | text => exact computes_pure _ s
  | custom use extra => exact computes_pure _ s

theorem computes_alignment (a : Amount) :
    Computes (alignment ctx a) s (a.alignment (env ctx s)) := by
  refine (computes_amount ctx s a).bind fun n _ => ?_
  split
  · exact computes_throw _ _
  · exact computes_pure _ _

theorem computes_skipCount (a : Amount) :
    Computes (skipCount ctx a) s (ctx.skipped (env ctx s) a) :=
  (computes_amount ctx s a).bind fun n _ => computes_nonNegative ctx _ .skipCount n

end PassM

/-- A width is that of a byte at most. -/
theorem ElementType.width_bit {env : Expr.Env} {a : Amount} {w : Nat}
    (h : (bit a).width env = .ok w) : 1 ≤ w ∧ w ≤ 8 := by
  obtain ⟨v, -, h⟩ := except_bind_eq_ok.mp h
  split at h
  · rename_i hrange
    cases h
    have hlow := Int64.le_iff_toInt_le.mp hrange.1
    have hhigh := Int64.le_iff_toInt_le.mp hrange.2
    simp only [Int64.reduceToInt] at hlow hhigh
    omega
  · cases h

end RecordLayout
