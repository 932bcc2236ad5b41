import RecordLayout.Proofs.Flat.Halting
import RecordLayout.Proofs.Expr.Reading

/-!
# Evaluators of expressions

An expression is compiled from the text of each numeral and name as it was matched: the mark of a
hexadecimal numeral and that of an external name are cut off by byte offsets. Constants are folded on
the way, for which an operator is evaluated that may have no value. Neither stops a compilation: a
numeral that was matched has its mark, and a zero divisor is refused before it is divided by.
-/

namespace RecordLayout

/-! ## Folding -/

namespace Evaluator

/-- The value of an evaluator that is a constant. -/
def asConst : Evaluator → Option Int64
  | const v => some v
  | _ => none

/-- An operator on an operand. -/
def foldUnary (op : UnaryOp) : Evaluator → Evaluator
  | const v => const (op.apply v)
  | e => unary op e

/-- An operator on two operands. Constants are computed, which is an error of a pass where the
operator has no value. -/
def foldBinary (op : BinaryOp) (position : Position) (l r : Evaluator) : Halting Evaluator :=
  if op.divides = true ∧ r.asConst = some 0 then refuse (.constantZero op) position
  else
    match l.asConst, r.asConst with
    | some a, some b =>
      match op.value? a b with
      | some v => .ok (const v)
      | none => .error (.raised (.zeroDivisor op))
    | _, _ => .ok (binary op l r)

/-- The evaluator is that of the expression, its fields numbered. -/
def Shows (names : List FieldInfo) (e : Expr) (v : Evaluator) : Prop := v = ofExpr names e

theorem asConst_ofExpr (names : List FieldInfo) (e : Expr) :
    (ofExpr names e).asConst = e.asConst := by
  cases e <;> rfl

theorem foldUnary_ofExpr (names : List FieldInfo) (op : UnaryOp) (e : Expr) :
    foldUnary op (ofExpr names e) = ofExpr names (Expr.foldUnary op e) := by
  cases e <;> rfl

/-- An operator on two operands folds alike, a zero divisor refused: the fault of a value that does
not exist is never reached. -/
theorem foldBinary_agrees (names : List FieldInfo) (op : BinaryOp) (position : Position)
    (l r : Expr) :
    Agrees position (Shows names)
      (match Expr.foldBinary op l r with
        | some e => .ok e
        | none => .error (.constantZero op))
      (foldBinary op position (ofExpr names l) (ofExpr names r)) := by
  have hzero : r.asConst = some 0 ↔ r = .const 0 := by
    cases r <;> simp [Expr.asConst]
  simp only [foldBinary, Expr.foldBinary, asConst_ofExpr, hzero]
  by_cases hdivides : op.divides = true ∧ r = .const 0
  · rw [if_pos hdivides, if_pos hdivides]
    exact Agrees.refuse _
  · rw [if_neg hdivides, if_neg hdivides]
    cases l with
    | const a =>
      cases r with
      | const b =>
        cases hvalue : op.value? a b with
        | none =>
          obtain ⟨hop, rfl⟩ := BinaryOp.value?_eq_none_iff.mp hvalue
          exact absurd ⟨hop, rfl⟩ hdivides
        | some v =>
          simp only [hvalue, Expr.asConst]
          exact Agrees.pure rfl
      | field | external | counter | unary | binary => exact Agrees.pure rfl
    | field | external | counter | unary | binary => exact Agrees.pure rfl

end Evaluator

/-! ## Compiling a term -/

/-- What names stand for. -/
structure CheckedNames where
  /-- A name as it is. -/
  field : String → Halting Evaluator
  /-- A name marked as external. -/
  external : String → Halting Evaluator

/-- The names stand for the same, up to the numbers of the fields. -/
structure CheckedNames.Answer (infos : List FieldInfo) (position : Position) (names : Names)
    (checked : CheckedNames) : Prop where
  field : ∀ name, Agrees position (Evaluator.Shows infos) (names.field name)
    (checked.field name)
  external : ∀ name, Agrees position (Evaluator.Shows infos) (names.external name)
    (checked.external name)

namespace Term

/-- The signed word with these digits, if there is one. -/
def word? (base : Nat) (digits : String) : Option Int64 :=
  let n := numeralValue base digits
  if n < 2 ^ 63 then some (.ofNat n) else none

/-- The evaluator of a term. -/
def build (names : CheckedNames) (position : Position) : Term → Halting Evaluator
  | .decimal text =>
    match word? 10 text with
    | some v => .ok (.const v)
    | none => refuse (.badNumber text) position
  | .hex mark digits => do
    let text := mark ++ digits
    let unmarked ← slice text 2 text.utf8ByteSize
    match word? 16 unmarked with
    | some v => .ok (.const v)
    | none => refuse (.badHexNumber text) position
  | .counter => .ok .counter
  | .external n => do
    let text := "$" ++ n
    let unmarked ← slice text 1 text.utf8ByteSize
    names.external unmarked
  | .name n => names.field n
  | .plus t => t.build names position
  | .group t => t.build names position
  | .unary op t => do
    let e ← t.build names position
    pure (e.foldUnary op)
  | .binary op l r => do
    let l ← l.build names position
    let r ← r.build names position
    l.foldBinary op position r

/-- A numeral is a constant if its digits are those of an integer in range. -/
theorem numeral_eq (base : Nat) (digits : String) :
    numeral base digits = (word? base digits).map Expr.const := by
  unfold numeral word?
  dsimp only
  split <;> rfl

/-- What is behind a mark, up to the end. -/
theorem slice_mark (mark text : String) :
    slice (mark ++ text) mark.utf8ByteSize (mark ++ text).utf8ByteSize = .ok text := by
  have hslice : slice (mark ++ text) mark.utf8ByteSize (mark ++ text).utf8ByteSize =
      .ok (String.ofList text.toList) := by
    apply slice_eq_ok mark.toList text.toList []
    · rw [String.toList_append, List.append_nil]
    · rw [← String.utf8ByteSize_ofList, String.ofList_toList]
    · rw [← String.utf8ByteSize_ofList, String.ofList_toList, String.utf8ByteSize_append]
  rwa [String.ofList_toList] at hslice

/-- A numeral, whichever its base. -/
theorem word_agrees (infos : List FieldInfo) (position : Position) (base : Nat) (digits : String)
    (cause : Script.Cause) :
    Agrees position (Evaluator.Shows infos)
      (match numeral base digits with
        | some e => .ok e
        | none => .error cause)
      (match word? base digits with
        | some v => .ok (Evaluator.const v)
        | none => refuse cause position) := by
  rw [numeral_eq]
  cases word? base digits with
  | none => exact Agrees.refuse cause
  | some v => exact rfl

/-- A term is compiled to the evaluator of its expression. -/
theorem build_agrees {infos : List FieldInfo} {position : Position} {names : Names}
    {checked : CheckedNames} (h : checked.Answer infos position names) {t : Term}
    (ht : t.WellFormed) :
    Agrees position (Evaluator.Shows infos) (t.resolve names)
      (t.build checked position) := by
  induction t with
  | decimal text => exact word_agrees infos position 10 text _
  | hex mark digits =>
    have hmark : mark.utf8ByteSize = 2 := by
      rcases ht.1 with rfl | rfl <;> rfl
    have hslice := slice_mark mark digits
    rw [hmark] at hslice
    simp only [build, hslice]
    exact word_agrees infos position 16 digits _
  | counter => exact rfl
  | external n =>
    have hslice := slice_mark "$" n
    have hmark : "$".utf8ByteSize = 1 := rfl
    rw [hmark] at hslice
    simp only [build, hslice]
    exact h.external n
  | name n => exact h.field n
  | plus t ih => exact ih ht.1
  | group t ih => exact ih ht
  | unary op t ih =>
    apply (ih ht.1).bind
    rintro e _ - rfl
    exact Agrees.pure (Evaluator.foldUnary_ofExpr infos op e)
  | binary op l r ihl ihr =>
    apply (ihl ht.1).bind
    rintro l' _ - rfl
    apply (ihr ht.2.1).bind
    rintro r' _ - rfl
    exact Evaluator.foldBinary_agrees infos op position l' r'

end Term

end RecordLayout
