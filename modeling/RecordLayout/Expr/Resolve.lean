import RecordLayout.Expr.Basic
import RecordLayout.Expr.Term.Scan
import RecordLayout.Script.Error

/-!
# From terms to expressions

A term becomes an expression by reading its numerals, looking up its names and folding its
constants, from left to right and operands before operators, and the first fault on that way is the
one reported. A plus sign and parentheses leave no trace.
-/

namespace RecordLayout

-- Powers are those of the standard library, whatever a proof imports.
attribute [instance (high), default_instance (high+1)] instPowNat

/-- What names stand for. -/
structure Names where
  /-- A name as it is. -/
  field : String → Except Script.Cause Expr
  /-- A name marked as external. -/
  external : String → Except Script.Cause Expr

namespace Term

/-- The value of a digit. -/
def digitValue (c : Char) : Nat :=
  if c.isDigit then c.toNat - '0'.toNat
  else if 'a' ≤ c then c.toNat - 'a'.toNat + 10
  else c.toNat - 'A'.toNat + 10

/-- The number with these digits. -/
def numeralValue (base : Nat) (digits : String) : Nat :=
  digits.toList.foldl (fun n c => base * n + digitValue c) 0

/-- The constant with these digits, if a signed word holds it. -/
def numeral (base : Nat) (digits : String) : Option Expr :=
  let n := numeralValue base digits
  if n < 2 ^ 63 then some (.const (.ofNat n)) else none

/-- The expression of a term. -/
def resolve (names : Names) : Term → Except Script.Cause Expr
  | .decimal text =>
    match numeral 10 text with
    | some e => .ok e
    | none => .error (.badNumber text)
  | .hex mark digits =>
    match numeral 16 digits with
    | some e => .ok e
    | none => .error (.badHexNumber (mark ++ digits))
  | .counter => .ok .counter
  | .external n => names.external n
  | .name n => names.field n
  | .plus t => t.resolve names
  | .group t => t.resolve names
  | .unary op t => do
    let e ← t.resolve names
    pure (Expr.foldUnary op e)
  | .binary op l r => do
    let l ← l.resolve names
    let r ← r.resolve names
    match Expr.foldBinary op l r with
    | some e => .ok e
    | none => .error (.constantZero op)

end Term

/-- The expression that a text spells. -/
def Expr.ofText (names : Names) (text : String) : Except Script.Cause Expr :=
  match Term.ofText text with
  | .ok t => t.resolve names
  | .error attempts => .error (.inExpression text attempts.position.column attempts.failed)

end RecordLayout
