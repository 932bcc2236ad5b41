import RecordLayout.Expr.Operator

/-!
# Expressions as written

A term keeps what the text of an expression says: numerals as digits, names as names, signs and
parentheses where they stand. A sequence of operands with operators between becomes one term by
attaching each operator with its right operand to the term on its left: it goes down the right edge
past the operators that bind less tightly, and takes as left operand what it finds there. A term in
parentheses is never entered, and operators of one level group to the left.
-/

namespace RecordLayout

/-- An expression as written. -/
inductive Term where
  /-- A decimal numeral. -/
  | decimal (text : String)
  /-- A hexadecimal numeral: its mark and its digits. -/
  | hex (mark digits : String)
  | counter
  /-- A name marked as external. -/
  | external (name : String)
  /-- A name, which may have several parts. -/
  | name (name : String)
  /-- A plus sign before an operand. -/
  | plus (operand : Term)
  | unary (op : UnaryOp) (operand : Term)
  | binary (op : BinaryOp) (left right : Term)
  /-- A term in parentheses. -/
  | group (inner : Term)
  deriving DecidableEq, Repr

namespace Term

/-- A term with one more operator and operand behind it. -/
def attach (op : BinaryOp) (operand : Term) : Term → Term
  | .binary outer l r =>
    if outer.level < op.level then .binary outer l (attach op operand r)
    else .binary op (.binary outer l r) operand
  | t => .binary op t operand

/-- The term of a first operand and the operators that follow, each with its operand. -/
def chain (first : Term) (more : List (BinaryOp × Term)) : Term :=
  more.foldl (fun t next => attach next.1 next.2 t) first

end Term

/-- A sign before an operand. -/
inductive Sign where
  | plus
  | unary (op : UnaryOp)
  deriving DecidableEq, Repr

/-- An operand behind a sign. -/
def Sign.before : Sign → Term → Term
  | .plus, t => .plus t
  | .unary op, t => .unary op t

end RecordLayout
