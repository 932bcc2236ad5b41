import RecordLayout.Expr.Basic

/-!
# Listing and printing expressions

An expression is listed in pre-order: an operator stands before its operands. The printer rebuilds
the text from that list alone, with a frame on its stack for each operator that still waits for an
operand. In the text every binary operation has parentheses, and no unary one has.
-/

namespace RecordLayout.Expr

/-- An entry of the pre-order list of an expression. -/
inductive Item where
  | const (value : Int64)
  | field (info : FieldInfo)
  | external (name : String)
  | counter
  | unary (op : UnaryOp)
  | binary (op : BinaryOp)
  deriving DecidableEq, Repr

/-- An expression in pre-order. -/
def items : Expr → List Item
  | .const v => [.const v]
  | .field info => [.field info]
  | .external name => [.external name]
  | .counter => [.counter]
  | .unary op e => .unary op :: e.items
  | .binary op l r => .binary op :: (l.items ++ r.items)

/-- The text of a unary operation. -/
def unaryText (op : UnaryOp) (operand : String) : String := op.symbol ++ operand

/-- The text of a binary operation. -/
def binaryText (op : BinaryOp) (l r : String) : String :=
  "(" ++ l ++ " " ++ op.symbol ++ " " ++ r ++ ")"

/-- An operator that waits for an operand. -/
inductive Frame where
  | operand (op : UnaryOp)
  | left (op : BinaryOp)
  | right (op : BinaryOp) (left : String)

/-- What the printer holds: waiting operators, the innermost first, and the text once none waits. -/
structure Printer where
  frames : List Frame
  out : String

namespace Printer

/-- The printer before the first entry. -/
def empty : Printer := ⟨[], ""⟩

/-- The text of a finished operand goes to the operators that wait for it. -/
def settle (out text : String) : List Frame → Printer
  | [] => ⟨[], text⟩
  | .operand op :: frames => settle out (unaryText op text) frames
  | .left op :: frames => ⟨.right op text :: frames, out⟩
  | .right op l :: frames => settle out (binaryText op l text) frames

/-- The printer after one more entry. -/
def take (p : Printer) : Item → Printer
  | .const v => settle p.out (toString v) p.frames
  | .field info => settle p.out info.path p.frames
  | .external name => settle p.out ("$" ++ name) p.frames
  | .counter => settle p.out "$$" p.frames
  | .unary op => ⟨.operand op :: p.frames, p.out⟩
  | .binary op => ⟨.left op :: p.frames, p.out⟩

end Printer

/-- The text of an expression. -/
def render (e : Expr) : String :=
  (e.items.foldl Printer.take Printer.empty).out

end RecordLayout.Expr
