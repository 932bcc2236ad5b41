import RecordLayout.Expr.Term
import RecordLayout.Script.Scanner

/-!
# Reading terms

The grammar of expressions. Between the parts there may be gaps, but none inside a numeral or a
name. A parenthesis may hold any expression; each one open takes a character of the text, so the
length of the text bounds how deep they nest.
-/

namespace RecordLayout.Script.Scanner

/-- A hexadecimal digit. -/
def isHexDigit (c : Char) : Bool :=
  c.isDigit || ('a' ≤ c && c ≤ 'f') || ('A' ≤ c && c ≤ 'F')

/-- A hexadecimal numeral. -/
def hexNumber : Scanner Term :=
  named .hexNumber do
    let mark ← (do word "0x".toList; pure "0x") <|> (do word "0X".toList; pure "0X")
    let digits ← span1 isHexDigit
    notNext isNamePart
    pure (.hex mark (String.ofList digits))

/-- A decimal numeral. -/
def decimalNumber : Scanner Term :=
  named .number do
    let digits ← span1 Char.isDigit
    notNext isNameStart
    pure (.decimal (String.ofList digits))

/-- A name marked as external. -/
def externalRef : Scanner Term :=
  named .externalRef do
    word ['$']
    let n ← name
    pure (.external n)

/-- The counter of the stream, with one mark or two. -/
def counter : Scanner Term :=
  named .counter do
    word ['$', '$'] <|> word ['$']
    notNext isNameStart
    pure .counter

/-- A name with its parts. -/
def fieldRef : Scanner Term :=
  named .fieldRef do
    let first ← name
    let more ← many (do word ['.']; name)
    pure (.name (".".intercalate (first :: more)))

/-- An operand without a sign; `inner` reads what stands in parentheses. -/
def primary (inner : Scanner Term) : Scanner Term :=
  hexNumber <|> decimalNumber <|> externalRef <|> counter <|> fieldRef <|>
    (do
      word ['(']
      gap
      let t ← inner
      gap
      word [')']
      pure (.group t))

/-- A sign. -/
def sign : Scanner Sign :=
  named .neg (do word ['-']; pure (.unary .neg)) <|>
  named .pos (do word ['+']; pure .plus) <|>
  named .bnot (do word ['~']; pure (.unary .not))

/-- An operand with the signs before it. -/
def operand (inner : Scanner Term) : Scanner Term := do
  let signs ← manyApart sign
  gap
  let t ← primary inner
  pure (signs.foldr Sign.before t)

/-- An operator between two operands. -/
def operator : Scanner BinaryOp :=
  named .add (do word ['+']; pure .add) <|>
  named .sub (do word ['-']; pure .sub) <|>
  named .mul (do word ['*']; pure .mul) <|>
  named .div (do word ['/']; pure .div) <|>
  named .rem (do word ['%']; pure .rem) <|>
  named .shl (do word ['<', '<']; pure .shl) <|>
  named .shr (do word ['>', '>']; pure .shr) <|>
  named .band (do word ['&']; pure .and) <|>
  named .bxor (do word ['^']; pure .xor) <|>
  named .bor (do word ['|']; pure .or)

/-- An expression in which at most `depth` parentheses are open at once. -/
def expr : (depth : Nat) → Scanner Term
  | 0 => failure
  | depth + 1 =>
    named .expr do
      let first ← operand (expr depth)
      gap
      let more ← manyApart do
        let op ← operator
        gap
        let t ← operand (expr depth)
        pure (op, t)
      pure (.chain first more)

/-- A whole expression. -/
def expression : Scanner Term :=
  named .expression do
    gap
    let c ← get
    let t ← expr (c.rest.length + 1)
    gap
    named .endOfInput atEnd
    pure t

end RecordLayout.Script.Scanner

namespace RecordLayout.Term

/-- The term that a text spells. -/
def ofText (text : String) : Except Script.Attempts Term :=
  (Script.Scanner.expression.answer (.ofString text)).map Prod.fst

end RecordLayout.Term
