import RecordLayout.Expr.Eval
import RecordLayout.Layout.Scope
import RecordLayout.Proofs.Outcome

/-!
# Folding keeps the meaning

The meaning of an expression is computed node by node on integers, from left to right: every result
wraps to a signed word, a shift counts by the lowest six bits of its right operand, and a zero divisor
has no result. An expression whose constants are folded has the meaning of the one that was built, with
the same error if it has no value, and only a divisor that folds to zero keeps an expression from being
folded (`folding_keeps_meaning`).

An external name is put to the resolver along with a whole expression, which in a pass is the folded
one. Which expression the resolver is told is left open here: it is the same on both sides.
-/

namespace RecordLayout

/-! ## Arithmetic on integers -/

/-- The signed word of 64 bits that an integer wraps to. -/
def wrapped (n : Int) : Int := n.bmod (2 ^ 64)

/-- The 64 lowest bits of an integer in two's complement. -/
def lowBits (n : Int) : Nat := (n % 2 ^ 64).toNat

/-- The operator on integers. -/
def UnaryOp.onInts : UnaryOp → Int → Int
  | .neg, a => -a
  | .not, a => -a - 1

/-- The operator on integers. A quotient is cut off toward zero, and a shift to the right rounds down. -/
def BinaryOp.onInts : BinaryOp → Int → Int → Int
  | .add, a, b => a + b
  | .sub, a, b => a - b
  | .mul, a, b => a * b
  | .div, a, b => a.tdiv b
  | .rem, a, b => a.tmod b
  | .shl, a, b => a * 2 ^ (b % 64).toNat
  | .shr, a, b => a / 2 ^ (b % 64).toNat
  | .and, a, b => (lowBits a &&& lowBits b : Nat)
  | .xor, a, b => (lowBits a ^^^ lowBits b : Nat)
  | .or, a, b => (lowBits a ||| lowBits b : Nat)

section

variable (a b v : Int64)

theorem wrapped_toInt : wrapped v.toInt = v.toInt := by
  rw [wrapped, ← Int64.toInt_toBitVec]
  exact BitVec.toInt_bmod_cancel v.toBitVec

/-- The lowest bits of the integer of a word are those of the word. -/
theorem lowBits_toInt : lowBits v.toInt = v.toBitVec.toNat := by
  have hlt := v.toBitVec.isLt
  have h : v.toInt % 2 ^ 64 = (v.toBitVec.toNat : Int) := by
    rw [← Int64.toInt_toBitVec, BitVec.toInt_eq_toNat_bmod,
      show (2 : Int) ^ 64 = ((2 ^ 64 : Nat) : Int) from rfl, Int.bmod_emod]
    exact Int.emod_eq_of_lt (Int.natCast_nonneg _) (by exact_mod_cast hlt)
  rw [lowBits, h, Int.toNat_natCast]

/-- The count of a shift. -/
theorem toNat_smod : (b.toBitVec.smod 64).toNat = (b.toInt % 64).toNat := by
  have h : (b.toBitVec.smod 64).toInt = b.toInt % 64 := by
    rw [BitVec.toInt_smod, ← Int64.toInt_toBitVec]
    exact Int.fmod_eq_emod_of_nonneg _ (by decide)
  have hnonneg := Int.emod_nonneg b.toInt (show (64 : Int) ≠ 0 by decide)
  have hmsb : (b.toBitVec.smod 64).msb = false := by
    rw [BitVec.msb_eq_toInt, h, decide_eq_false_iff_not]
    omega
  rw [← h, BitVec.toNat_toInt_of_msb _ hmsb]

/-- A shift to the left wraps like the product with a power of two. -/
theorem toInt_shiftLeft : (a <<< b).toInt = wrapped (BinaryOp.onInts .shl a.toInt b.toInt) := by
  rw [← Int64.toInt_toBitVec, Int64.toBitVec_shiftLeft, BitVec.shiftLeft_eq', BitVec.toInt_shiftLeft,
    toNat_smod, Nat.shiftLeft_eq, BinaryOp.onInts, wrapped, ← Int64.toInt_toBitVec a,
    BitVec.toInt_eq_toNat_bmod, Int.bmod_mul_bmod]
  push_cast
  rfl

theorem toInt_shiftRight : (a >>> b).toInt = wrapped (BinaryOp.onInts .shr a.toInt b.toInt) := by
  have h : (a >>> b).toInt = a.toInt / 2 ^ (b.toInt % 64).toNat := by
    rw [← Int64.toInt_toBitVec, Int64.toBitVec_shiftRight, BitVec.sshiftRight_eq',
      BitVec.toInt_sshiftRight, toNat_smod, Int.shiftRight_eq_div_pow, Int64.toInt_toBitVec]
    rfl
  rw [BinaryOp.onInts, ← h, wrapped_toInt]

/-- An operator on the bits of words. -/
theorem toInt_of_lowBits {f : Nat → Nat → Nat}
    (h : v.toBitVec.toInt = ((f a.toBitVec.toNat b.toBitVec.toNat : Nat) : Int).bmod (2 ^ 64)) :
    v.toInt = wrapped (f (lowBits a.toInt) (lowBits b.toInt) : Nat) := by
  rw [lowBits_toInt, lowBits_toInt, ← Int64.toInt_toBitVec, h, wrapped]

end

/-- An operator of words is the operator of integers, wrapped. -/
theorem UnaryOp.toInt_apply (op : UnaryOp) (v : Int64) :
    (op.apply v).toInt = wrapped (op.onInts v.toInt) := by
  cases op with
  | neg => exact Int64.toInt_neg v
  | not => exact Int64.toInt_not v

/-- An operator of words is the operator of integers, wrapped, but for a zero divisor. -/
theorem BinaryOp.toInt_value? (op : BinaryOp) (a b : Int64) :
    (op.value? a b).map Int64.toInt =
      if op.divides = true ∧ b.toInt = 0 then none else some (wrapped (op.onInts a.toInt b.toInt)) := by
  have hzero : b = 0 ↔ b.toInt = 0 := Int64.toInt_inj.symm
  cases op with
  | add => exact congrArg some (Int64.toInt_add a b)
  | sub => exact congrArg some (Int64.toInt_sub a b)
  | mul => exact congrArg some (Int64.toInt_mul a b)
  | div =>
    by_cases h : b.toInt = 0
    · simp [value?, divides, hzero, h]
    · simp [value?, divides, hzero, h, onInts, wrapped, Int64.toInt_div]
  | rem =>
    by_cases h : b.toInt = 0
    · simp [value?, divides, hzero, h]
    · simp [value?, divides, hzero, h, onInts, ← Int64.toInt_mod, wrapped_toInt]
  | shl => exact congrArg some (toInt_shiftLeft a b)
  | shr => exact congrArg some (toInt_shiftRight a b)
  | and => exact congrArg some (toInt_of_lowBits a b (a &&& b) (BitVec.toInt_and a.toBitVec b.toBitVec))
  | xor => exact congrArg some (toInt_of_lowBits a b (a ^^^ b) (BitVec.toInt_xor a.toBitVec b.toBitVec))
  | or => exact congrArg some (toInt_of_lowBits a b (a ||| b) (BitVec.toInt_or a.toBitVec b.toBitVec))

namespace Expr

/-! ## Meaning -/

/-- The value of an expression, node by node. The resolver is told the expression `root`. -/
def meaning (env : Env) (root : Expr) : Expr → Except Error Int
  | const v => .ok v.toInt
  | field info =>
    match env.numbers.get? info.index with
    | some v => .ok v.toInt
    | none => .error (.noValueYet info.path)
  | external name => Int64.toInt <$> env.external root name
  | counter => .ok env.counter.toInt
  | unary op e => do
    let a ← meaning env root e
    pure (wrapped (op.onInts a))
  | binary op l r => do
    let a ← meaning env root l
    let b ← meaning env root r
    if op.divides = true ∧ b = 0 then .error (.zeroDivisor op)
    else pure (wrapped (op.onInts a b))

/-- An operator on the values of its operands. -/
def operate (op : BinaryOp) (a b : Int64) : Except Error Int64 :=
  match op.value? a b with
  | some v => .ok v
  | none => .error (.zeroDivisor op)

variable {env : Env} {root u e l r : Expr} {op : BinaryOp}

/-- Operators of values fail exactly for a zero divisor. -/
theorem toInt_operate (op : BinaryOp) (a b : Int64) :
    Int64.toInt <$> operate op a b =
      if op.divides = true ∧ b.toInt = 0 then .error (.zeroDivisor op)
      else pure (wrapped (op.onInts a.toInt b.toInt)) := by
  have h := op.toInt_value? a b
  unfold operate
  cases hvalue : op.value? a b with
  | some v =>
    rw [hvalue, Option.map_some] at h
    split at h
    · cases h
    · rename_i hdivisor
      rw [if_neg hdivisor, ← Option.some_inj.mp h]
      rfl
  | none =>
    rw [hvalue, Option.map_none] at h
    split at h
    · rename_i hdivisor
      rw [if_pos hdivisor]
      rfl
    · cases h

/-- The value of an expression, as a word, is its meaning. -/
theorem toInt_evalIn (u : Expr) : Int64.toInt <$> evalIn env root u = meaning env root u := by
  induction u with
  | unary op u ih =>
    rw [meaning, ← ih, evalIn]
    cases evalIn env root u with
    | error cause => rfl
    | ok v => exact congrArg Except.ok (op.toInt_apply v)
  | binary op l r ihl ihr =>
    rw [meaning, ← ihl, ← ihr, evalIn]
    -- The first operand without a value decides.
    cases evalIn env root l with
    | error cause => rfl
    | ok a =>
      cases evalIn env root r with
      | error cause => rfl
      | ok b => exact toInt_operate op a b
  | field info =>
    rw [evalIn, meaning]
    cases env.numbers.get? info.index <;> rfl
  | const | external | counter => rfl

/-! ## Folding -/

/-- The expression with its constants folded, operands before operators and from left to right. -/
def fold : Expr → Except Script.Cause Expr
  | unary op e => do
    let e ← e.fold
    pure (foldUnary op e)
  | binary op l r => do
    let l ← l.fold
    let r ← r.fold
    match foldBinary op l r with
    | some e => .ok e
    | none => .error (.constantZero op)
  | leaf => .ok leaf

/-- Some division or remainder in the expression has a right operand that folds to zero. -/
def DividesByZero : Expr → Prop
  | unary _ e => e.DividesByZero
  | binary op l r =>
    l.DividesByZero ∨ r.DividesByZero ∨ (op.divides = true ∧ r.fold = .ok (.const 0))
  | _ => False

theorem eq_const_of_asConst {v : Int64} (h : e.asConst = some v) : e = .const v := by
  cases e <;> cases h
  rfl

/-- An operator on an operand that is no constant stands as it is. -/
theorem foldUnary_of_asConst_none {op : UnaryOp} (h : e.asConst = none) :
    foldUnary op e = .unary op e := by
  cases e <;> first | rfl | cases h

/-- An operator on two operands stands as it is where not both are constants, but for a zero divisor. -/
theorem foldBinary_of_asConst_none (hdivisor : ¬ (op.divides = true ∧ r = .const 0))
    (h : l.asConst = none ∨ r.asConst = none) : foldBinary op l r = some (.binary op l r) := by
  unfold foldBinary
  rw [if_neg hdivisor]
  split
  · rcases h with h | h <;> cases h
  · rfl

/-- An operator on two constants is computed. -/
theorem foldBinary_const {a b v : Int64} (h : op.value? a b = some v) :
    foldBinary op (.const a) (.const b) = some (.const v) := by
  unfold foldBinary
  split
  · rename_i hdivisor
    have hnone : op.value? a b = none :=
      BinaryOp.value?_eq_none_iff.mpr ⟨hdivisor.1, Expr.const.inj hdivisor.2⟩
    rw [hnone] at h
    cases h
  · exact Option.map_eq_some_iff.mpr ⟨v, h, rfl⟩

theorem evalIn_foldUnary (op : UnaryOp) (e : Expr) :
    evalIn env root (foldUnary op e) = op.apply <$> evalIn env root e := by
  cases e <;> rfl

/-- Folding a binary operation does not change its value. -/
theorem evalIn_foldBinary (h : foldBinary op l r = some e) :
    evalIn env root e =
      evalIn env root l >>= fun a => evalIn env root r >>= fun b => operate op a b := by
  unfold foldBinary at h
  split at h
  · cases h
  · split at h
    · rename_i a b _
      obtain ⟨v, hv, rfl⟩ := Option.map_eq_some_iff.mp h
      show Except.ok v = operate op a b
      rw [operate, hv]
    · cases h
      rfl

/-- What is folded has the value of what was built. -/
theorem evalIn_of_fold (h : u.fold = .ok e) : evalIn env root e = evalIn env root u := by
  induction u generalizing e with
  | unary op u ih =>
    obtain ⟨e', he', h⟩ := except_bind_eq_ok.mp h
    cases h
    rw [evalIn_foldUnary, ih he', evalIn]
    rfl
  | binary op u₁ u₂ ih₁ ih₂ =>
    obtain ⟨l, hl, h⟩ := except_bind_eq_ok.mp h
    obtain ⟨r, hr, h⟩ := except_bind_eq_ok.mp h
    cases hfold : foldBinary op l r with
    | none =>
      rw [hfold] at h
      cases h
    | some e' =>
      rw [hfold] at h
      cases h
      rw [evalIn_foldBinary hfold, ih₁ hl, ih₂ hr]
      rfl
  | const | field | external | counter =>
    cases h
    rfl

/-- Folding fails exactly for a divisor that folds to zero. -/
theorem fold_eq_error_iff (u : Expr) : (∃ cause, u.fold = .error cause) ↔ u.DividesByZero := by
  induction u with
  | unary op u ih =>
    rw [DividesByZero, ← ih, fold]
    cases u.fold with
    | error cause => exact ⟨fun _ => ⟨cause, rfl⟩, fun _ => ⟨cause, rfl⟩⟩
    | ok e => simp [bind, Except.bind, pure, Except.pure]
  | binary op l r ihl ihr =>
    rw [DividesByZero, ← ihl, ← ihr, fold]
    cases l.fold with
    | error cause => exact ⟨fun _ => .inl ⟨cause, rfl⟩, fun _ => ⟨cause, rfl⟩⟩
    | ok a =>
      cases r.fold with
      | error cause => exact ⟨fun _ => .inr (.inl ⟨cause, rfl⟩), fun _ => ⟨cause, rfl⟩⟩
      | ok b =>
        show (∃ cause, (match foldBinary op a b with
          | some e => Except.ok e
          | none => .error (Script.Cause.constantZero op)) = .error cause) ↔ _
        have hfold : foldBinary op a b = none ↔ op.divides = true ∧ b = .const 0 :=
          foldBinary_eq_none_iff
        cases hfolded : foldBinary op a b <;> simp_all
  | const | field | external | counter => simp [fold, DividesByZero]

/-- What keeps an expression from being folded is a division or a remainder. -/
theorem exists_of_fold_eq_error {cause : Script.Cause} (h : u.fold = .error cause) :
    ∃ op, BinaryOp.divides op = true ∧ cause = .constantZero op := by
  induction u with
  | unary op u ih =>
    rcases except_bind_eq_error.mp h with h | ⟨e, -, h⟩
    · exact ih h
    · cases h
  | binary op l r ihl ihr =>
    rcases except_bind_eq_error.mp h with h | ⟨a, -, h⟩
    · exact ihl h
    · rcases except_bind_eq_error.mp h with h | ⟨b, -, h⟩
      · exact ihr h
      · split at h
        · cases h
        · rename_i hfold
          cases h
          exact ⟨op, (foldBinary_eq_none_iff.mp hfold).1, rfl⟩
  | const | field | external | counter => cases h

end Expr

/-! ## Reading -/

namespace Term

/-- The expression of a term with nothing folded. -/
def unfolded (names : Names) : Term → Except Script.Cause Expr
  | unary op t => do
    let e ← t.unfolded names
    pure (.unary op e)
  | binary op l r => do
    let l ← l.unfolded names
    let r ← r.unfolded names
    pure (.binary op l r)
  | plus t | group t => t.unfolded names
  | leaf => leaf.resolve names

end Term

namespace Scope

variable {s : Scope} {name : String} {e : Expr}

/-- An external name has nothing to fold. -/
theorem fold_of_external (h : s.external name = .ok e) : e.fold = .ok e := by
  unfold external at h
  split at h
  · cases h
    rfl
  · cases h

/-- What a name stands for has nothing to fold. -/
theorem fold_of_resolve (h : s.resolve name = .ok e) : e.fold = .ok e := by
  obtain ⟨found, -, h⟩ := except_bind_eq_ok.mp h
  cases found with
  | some d =>
    simp only at h
    split at h
    · cases h
      rfl
    · cases h
  | none =>
    simp only at h
    split at h
    · cases h
    · exact fold_of_external h

end Scope

namespace Term

variable {s : Scope} {t : Term} {u : Expr}

/-- A numeral has nothing to fold. -/
theorem fold_of_numeral {base : Nat} {digits : String} {cause : Script.Cause}
    (h : (match numeral base digits with
      | some e => Except.ok e
      | none => .error cause) = .ok u) : u.fold = .ok u := by
  unfold numeral at h
  simp only at h
  split at h
  · rename_i hn
    split at hn
    · cases hn
      cases h
      rfl
    · cases hn
  · cases h

/-- Reading folds what was built: the expression of a term is the one with nothing folded, folded. -/
theorem resolve_of_unfolded (h : t.unfolded s.names = .ok u) : t.resolve s.names = u.fold := by
  induction t generalizing u with
  | unary op t ih =>
    obtain ⟨u', hu', h⟩ := except_bind_eq_ok.mp h
    cases h
    rw [resolve, ih hu', Expr.fold]
  | binary op l r ihl ihr =>
    obtain ⟨u₁, hu₁, h⟩ := except_bind_eq_ok.mp h
    obtain ⟨u₂, hu₂, h⟩ := except_bind_eq_ok.mp h
    cases h
    rw [resolve, ihl hu₁, ihr hu₂]
    rfl
  | plus t ih => exact ih h
  | group t ih => exact ih h
  | decimal text => exact h.trans (fold_of_numeral h).symm
  | hex mark digits => exact h.trans (fold_of_numeral h).symm
  | counter =>
    cases h
    rfl
  | external n => exact h.trans (Scope.fold_of_external h).symm
  | name n => exact h.trans (Scope.fold_of_resolve h).symm

end Term

/-- An expression that can be folded has, in any pass, the value or the error that it had before it was
folded, and that is its meaning. Folding fails exactly if some division or remainder has a right operand
that folds to zero. It is what happens to an expression that is read. -/
theorem Expr.folding_keeps_meaning (u : Expr) :
    (∀ e, u.fold = .ok e → ∀ env root, evalIn env root e = evalIn env root u) ∧
      (∀ env root, Int64.toInt <$> evalIn env root u = meaning env root u) ∧
      ((∃ cause, u.fold = .error cause) ↔ u.DividesByZero) ∧
      (∀ cause, u.fold = .error cause →
        ∃ op, BinaryOp.divides op = true ∧ cause = .constantZero op) ∧
      ∀ (s : Scope) (t : Term), t.unfolded s.names = .ok u → t.resolve s.names = u.fold :=
  ⟨fun _ h _ _ => evalIn_of_fold h, fun _ _ => toInt_evalIn u, u.fold_eq_error_iff,
    fun _ => exists_of_fold_eq_error, fun _ _ => Term.resolve_of_unfolded⟩

/-- The least word divided by minus one wraps. -/
example : (Expr.binary .div (.const Int64.minValue) (.const (-1))).fold =
    .ok (.const Int64.minValue) := by decide

end RecordLayout
