import RecordLayout.Proofs.Expr.Unambiguous
import RecordLayout.Proofs.Table.Lookup

/-!
# Printing expressions of blocks

An expression of a block is visited in pre-order, with its fields looked up on the way. The printer
counts: each operator on its stack knows how many operands it takes and has those that are printed
already. Once the last one is there, the operator with its operands is an operand itself and goes to
the operator below. Whatever stands on the stack, all that comes of a whole expression is that its
text is an operand (`Evaluator.visit_take`), so at the end the stack is empty.
-/

namespace RecordLayout

namespace Evaluator

/-- Visits an expression, an operator before its operands. What is visited is handed to `take`. -/
def visit {σ : Type} (take : σ → Expr.Item → Except Fault σ) (names : List FieldInfo) :
    Evaluator → σ → Except Fault σ
  | const v, s => take s (.const v)
  | field number, s => do
    let info ← lookUp names number
    take s (.field info)
  | external name, s => take s (.external name)
  | counter, s => take s .counter
  | unary op e, s => do
    let s ← take s (.unary op)
    e.visit take names s
  | binary op l r, s => do
    let s ← take s (.binary op)
    let s ← l.visit take names s
    r.visit take names s

/-- The text of an expression, with parentheses around every binary operation. -/
def text (names : List FieldInfo) : Evaluator → Except Fault String
  | const v => pure (toString v)
  | field number => do
    let info ← lookUp names number
    pure info.path
  | external name => pure ("$" ++ name)
  | counter => pure "$$"
  | unary op e => do
    let t ← e.text names
    pure (Expr.unaryText op t)
  | binary op l r => do
    let l ← l.text names
    let r ← r.text names
    pure (Expr.binaryText op l r)

end Evaluator

/-- An operator that waits for operands. -/
structure PendingOperator where
  symbol : String
  /-- How many operands it takes. -/
  arity : Nat
  /-- The operands that it has. -/
  operands : List String

/-- A printer that counts operands: the operators that wait, the innermost first, and the text once
none waits. -/
structure CountingPrinter where
  stack : List PendingOperator
  out : String

namespace PendingOperator

/-- The text of the operator with its operands. -/
def finished (p : PendingOperator) : Except Fault String := do
  let first ← lookUp p.operands 0
  if p.arity = 1 then pure (p.symbol ++ first)
  else do
    let second ← lookUp p.operands 1
    pure ("(" ++ first ++ " " ++ p.symbol ++ " " ++ second ++ ")")

end PendingOperator

namespace CountingPrinter

/-- The printer before the first entry. -/
def empty : CountingPrinter := ⟨[], ""⟩

/-- A finished operand goes to the operator that waits for it, and on with that operator if it was
the last one. -/
def operand (out : String) : List PendingOperator → String → Except Fault CountingPrinter
  | [], text => .ok ⟨[], text⟩
  | pending :: stack, text =>
    let pending := { pending with operands := pending.operands ++ [text] }
    if pending.operands.length < pending.arity then .ok ⟨pending :: stack, out⟩
    else do
      let text ← pending.finished
      operand out stack text

/-- A finished operand for what is on the stack. -/
def leaf (p : CountingPrinter) (text : String) : Except Fault CountingPrinter :=
  operand p.out p.stack text

/-- The printer after one more entry. -/
def take (p : CountingPrinter) : Expr.Item → Except Fault CountingPrinter
  | .const v => p.leaf (toString v)
  | .field info => p.leaf info.path
  | .external name => p.leaf ("$" ++ name)
  | .counter => p.leaf "$$"
  | .unary op => .ok { p with stack := ⟨op.symbol, 1, []⟩ :: p.stack }
  | .binary op => .ok { p with stack := ⟨op.symbol, 2, []⟩ :: p.stack }

theorem leaf_unary (p : CountingPrinter) (op : UnaryOp) (text : String) :
    leaf { p with stack := ⟨op.symbol, 1, []⟩ :: p.stack } text =
      p.leaf (Expr.unaryText op text) := rfl

theorem leaf_left (p : CountingPrinter) (op : BinaryOp) (text : String) :
    leaf { p with stack := ⟨op.symbol, 2, []⟩ :: p.stack } text =
      .ok { p with stack := ⟨op.symbol, 2, [text]⟩ :: p.stack } := rfl

theorem leaf_right (p : CountingPrinter) (op : BinaryOp) (left text : String) :
    leaf { p with stack := ⟨op.symbol, 2, [left]⟩ :: p.stack } text =
      p.leaf (Expr.binaryText op left text) := rfl

end CountingPrinter

namespace Evaluator

/-- A visited expression is one operand, its text, for what is on the stack. -/
theorem visit_take (names : List FieldInfo) (v : Evaluator) (p : CountingPrinter) :
    v.visit CountingPrinter.take names p = v.text names >>= p.leaf := by
  induction v generalizing p with
  | const | external | counter => rfl
  | field number =>
    rw [visit, text]
    cases lookUp names number <;> rfl
  | unary op e ih =>
    have hvisit : (unary op e).visit CountingPrinter.take names p =
        e.visit CountingPrinter.take names { p with stack := ⟨op.symbol, 1, []⟩ :: p.stack } := rfl
    rw [hvisit, ih, text]
    cases e.text names with
    | error f => rfl
    | ok t => exact p.leaf_unary op t
  | binary op l r ihl ihr =>
    have hvisit : (binary op l r).visit CountingPrinter.take names p =
        (l.visit CountingPrinter.take names { p with stack := ⟨op.symbol, 2, []⟩ :: p.stack } >>=
          r.visit CountingPrinter.take names) := rfl
    rw [hvisit, ihl, text]
    cases l.text names with
    | error f => rfl
    | ok left =>
      -- the left operand stays with the operator until the right one is there
      have hleft : (Except.ok left >>=
            CountingPrinter.leaf { p with stack := ⟨op.symbol, 2, []⟩ :: p.stack }) =
          .ok { p with stack := ⟨op.symbol, 2, [left]⟩ :: p.stack } := p.leaf_left op left
      rw [hleft]
      refine (ihr { p with stack := ⟨op.symbol, 2, [left]⟩ :: p.stack }).trans ?_
      cases r.text names with
      | error f => rfl
      | ok right => exact p.leaf_right op left right

/-- The text is that of the expression with its fields looked up. -/
theorem text_eq (names : List FieldInfo) (v : Evaluator) :
    v.text names = (v.resolve names).map Expr.text := by
  induction v with
  | const | external | counter => rfl
  | field number =>
    rw [text, resolve]
    cases lookUp names number <;> rfl
  | unary op e ih =>
    rw [text, resolve, ih]
    cases e.resolve names <;> rfl
  | binary op l r ihl ihr =>
    rw [text, resolve, ihl, ihr]
    cases l.resolve names with
    | error f => rfl
    | ok l => cases r.resolve names <;> rfl

end Evaluator

namespace Block

/-- The printer behind an expression of the block. -/
def print (b : Block) (v : Evaluator) : Except Fault CountingPrinter :=
  v.visit CountingPrinter.take b.names .empty

/-- What the printer makes of an expression of the block. -/
def render (b : Block) (v : Evaluator) : Except Fault String := do
  let p ← b.print v
  pure p.out

/-- The printer ends with an empty stack and the text of the expression. -/
theorem print_eq (b : Block) (v : Evaluator) :
    b.print v = (v.text b.names).map fun t => ⟨[], t⟩ := by
  rw [print, Evaluator.visit_take]
  cases v.text b.names <;> rfl

/-- What is printed of an expression with numbered fields is what is printed of the expression. -/
theorem render_ofExpr {b : Block} {e : Expr} (h : ∀ info ∈ e.fields, info ∈ b.names) :
    b.render (.ofExpr b.names e) = .ok e.render := by
  rw [render, print_eq, Evaluator.text_eq, Evaluator.resolve_ofExpr h, e.render_eq_text]
  rfl

end Block

end RecordLayout
