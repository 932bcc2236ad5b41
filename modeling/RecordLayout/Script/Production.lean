/-!
# Productions of the script grammar

The names under which the grammar's productions appear in messages about unexpected input, in the
order in which such a message lists them.
-/

namespace RecordLayout.Script

/-- A production of the grammar. -/
inductive Production where
  | endOfInput
  | script
  | structEnd
  | structStart
  | fieldDecl
  | byteOrder
  | typeName
  | typeExtra
  | extraNumber
  | extraExpr
  | arraySize
  | unbounded
  | sizeText
  | fieldName
  | expression
  | expr
  | neg
  | pos
  | bnot
  | add
  | sub
  | mul
  | div
  | rem
  | shl
  | shr
  | band
  | bxor
  | bor
  | hexNumber
  | number
  | counter
  | externalRef
  | fieldRef
  deriving DecidableEq, Repr

namespace Production

/-- All productions, in the order of messages. -/
def all : List Production :=
  [.endOfInput, .script, .structEnd, .structStart, .fieldDecl, .byteOrder, .typeName, .typeExtra,
    .extraNumber, .extraExpr, .arraySize, .unbounded, .sizeText, .fieldName, .expression, .expr,
    .neg, .pos, .bnot, .add, .sub, .mul, .div, .rem, .shl, .shr, .band, .bxor, .bor, .hexNumber,
    .number, .counter, .externalRef, .fieldRef]

/-- The name in messages. -/
def label : Production → String
  | .endOfInput => "EOI"
  | .script => "script"
  | .structEnd => "struct_end"
  | .structStart => "struct_start"
  | .fieldDecl => "field_decl"
  | .byteOrder => "byte_order"
  | .typeName => "type_name"
  | .typeExtra => "type_extra"
  | .extraNumber => "extra_number"
  | .extraExpr => "extra_expr"
  | .arraySize => "array_size"
  | .unbounded => "unbounded"
  | .sizeText => "size_text"
  | .fieldName => "field_name"
  | .expression => "expression"
  | .expr => "expr"
  | .neg => "neg"
  | .pos => "pos"
  | .bnot => "bnot"
  | .add => "add"
  | .sub => "sub"
  | .mul => "mul"
  | .div => "div"
  | .rem => "rem"
  | .shl => "shl"
  | .shr => "shr"
  | .band => "band"
  | .bxor => "bxor"
  | .bor => "bor"
  | .hexNumber => "hex_number"
  | .number => "number"
  | .counter => "counter"
  | .externalRef => "external_ref"
  | .fieldRef => "field_ref"

/-- Every production is listed. -/
theorem mem_all (p : Production) : p ∈ all := by
  cases p <;> decide

/-- The message about input where one of some productions had to stand: each is named once. -/
def unexpected (expected : List Production) : String :=
  match all.filter (expected.contains ·) with
  | [] => "unexpected input"
  | ps => "unexpected input, expected " ++ " or ".intercalate (ps.map label)

end Production

end RecordLayout.Script
