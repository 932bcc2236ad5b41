import RecordLayout.Expr.Operator
import RecordLayout.Layout.FieldInfo

/-!
# Integer expressions

The expressions that compute widths, lengths, counts and values. The leaves are constants, fields
declared before, external names whose values come with each pass, and the counter of the bytes
taken from or given to the stream.
-/

namespace RecordLayout

/-- An integer expression. -/
inductive Expr where
  | const (value : Int64)
  | field (info : FieldInfo)
  | external (name : String)
  | counter
  | unary (op : UnaryOp) (operand : Expr)
  | binary (op : BinaryOp) (left right : Expr)
  deriving DecidableEq, Repr

namespace Expr

/-- The value of an expression that is a constant. -/
def asConst : Expr → Option Int64
  | const v => some v
  | _ => none

/-! ## Folding

Operators whose operands are constants are computed where they are built. -/

/-- An operator on an operand. -/
def foldUnary (op : UnaryOp) : Expr → Expr
  | const v => const (op.apply v)
  | e => unary op e

/-- An operator on two operands; none if it divides by the constant zero. -/
def foldBinary (op : BinaryOp) (l r : Expr) : Option Expr :=
  if op.divides ∧ r = const 0 then none
  else
    match l, r with
    | const a, const b => (op.value? a b).map const
    | l, r => some (binary op l r)

theorem foldBinary_eq_none_iff {op : BinaryOp} {l r : Expr} :
    foldBinary op l r = none ↔ op.divides = true ∧ r = const 0 := by
  unfold foldBinary
  split
  · simp_all
  · rename_i h
    constructor
    · intro hn
      exfalso
      split at hn
      · rename_i a b
        rw [Option.map_eq_none_iff, BinaryOp.value?_eq_none_iff] at hn
        exact h ⟨hn.1, by rw [hn.2]⟩
      · exact absurd hn (by simp)
    · intro hd
      exact absurd hd h

end Expr

end RecordLayout
