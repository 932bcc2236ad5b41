/-!
# Operators of integer expressions

Expressions compute with signed words of 64 bits that wrap. Division truncates toward zero and the
remainder takes the sign of the dividend; a shift counts by the lowest six bits of its right
operand and keeps the sign to the right. Only a zero divisor has no result.
-/

namespace RecordLayout

/-- An operator with one operand. -/
inductive UnaryOp where
  | neg
  | not
  deriving DecidableEq, Repr

/-- An operator with two operands. -/
inductive BinaryOp where
  | add
  | sub
  | mul
  | div
  | rem
  | shl
  | shr
  | and
  | xor
  | or
  deriving DecidableEq, Repr

namespace UnaryOp

/-- How the operator is written. -/
def symbol : UnaryOp → String
  | .neg => "-"
  | .not => "~"

/-- The value of the operator. -/
def apply : UnaryOp → Int64 → Int64
  | .neg, v => -v
  | .not, v => ~~~v

end UnaryOp

namespace BinaryOp

/-- How the operator is written. -/
def symbol : BinaryOp → String
  | .add => "+"
  | .sub => "-"
  | .mul => "*"
  | .div => "/"
  | .rem => "%"
  | .shl => "<<"
  | .shr => ">>"
  | .and => "&"
  | .xor => "^"
  | .or => "|"

/-- How tightly the operator binds: a higher level binds first, and operators of one level group to
the left. -/
def level : BinaryOp → Nat
  | .or => 0
  | .xor => 1
  | .and => 2
  | .shl | .shr => 3
  | .add | .sub => 4
  | .mul | .div | .rem => 5

/-- The operator needs a divisor other than zero. -/
def divides : BinaryOp → Bool
  | .div | .rem => true
  | _ => false

/-- What messages call the operator. -/
def noun : BinaryOp → String
  | .div => "division"
  | .rem => "modulo"
  | op => op.symbol

/-- The value of the operator; none exactly for a zero divisor. -/
def value? (op : BinaryOp) (l r : Int64) : Option Int64 :=
  match op with
  | .add => some (l + r)
  | .sub => some (l - r)
  | .mul => some (l * r)
  | .div => if r = 0 then none else some (l / r)
  | .rem => if r = 0 then none else some (l % r)
  | .shl => some (l <<< r)
  | .shr => some (l >>> r)
  | .and => some (l &&& r)
  | .xor => some (l ^^^ r)
  | .or => some (l ||| r)

theorem value?_eq_none_iff {op : BinaryOp} {l r : Int64} :
    op.value? l r = none ↔ op.divides = true ∧ r = 0 := by
  cases op <;> simp [value?, divides]

end BinaryOp

end RecordLayout
