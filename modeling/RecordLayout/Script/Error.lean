import RecordLayout.Expr.Operator
import RecordLayout.Script.Production
import RecordLayout.Text.Position

/-!
# Errors of a script

A script is refused for one cause at one place. Causes are of two kinds: the script is malformed, or
an expression of it names a field that is unknown, ambiguous, not numeric or declared later.
-/

namespace RecordLayout.Script

/-- Why a script is refused. -/
inductive Cause where
  /-- Something else than one of these productions stands here. -/
  | unexpected (expected : List Production)
  /-- The number after a type's colon does not fit 32 bits. -/
  | parameterTooLarge (digits : String)
  /-- The expression text is malformed at a column of its own. -/
  | inExpression (text : String) (column : Nat) (expected : List Production)
  /-- A decimal numeral does not fit a signed word. -/
  | badNumber (text : String)
  /-- A hexadecimal numeral does not fit a signed word. -/
  | badHexNumber (text : String)
  /-- A divisor is the constant zero. -/
  | constantZero (op : BinaryOp)
  | afterUnbounded (array : Position)
  | directiveArray (type : String)
  | directiveName (type : String)
  | computedArray
  | computedUnnamed
  | computedWithoutExpression
  | unknownType (name : String)
  | refusedDeclaration (type : String)
  | bitWidth (width : Int64)
  | alignment
  | skipCount
  | parameterRange (type : String) (value : Int64)
  | noParameter (type : String)
  | unboundedRepeated
  | arraySize (size : Int64)
  | duplicatePath (path : String)
  | unmatchedClose
  | notClosed
  | notNumeric (path : String)
  | usedBeforeDeclared (name : String)
  | unknownField (name : String)
  | ambiguous (name : String) (paths : List String)
  deriving DecidableEq, Repr

namespace Cause

/-- The cause lies in what an expression refers to. -/
def isReference : Cause → Bool
  | .notNumeric _ | .usedBeforeDeclared _ | .unknownField _ | .ambiguous _ _ => true
  | _ => false

/-- The wording of a cause. -/
def message : Cause → String
  | .unexpected expected => Production.unexpected expected
  | .parameterTooLarge digits => s!"invalid number '{digits}'"
  | .inExpression text column expected =>
    s!"in expression '{text}' at column {column}: " ++ Production.unexpected expected
  | .badNumber text => s!"invalid number '{text}'"
  | .badHexNumber text => s!"invalid hex number '{text}'"
  | .constantZero op => op.noun ++ " by constant zero"
  | .afterUnbounded array =>
    "unbounded array at " ++ array.render ++
      " must be the last field, found another declaration"
  | .directiveArray type => s!"'{type}' cannot be an array"
  | .directiveName type => s!"'{type}' cannot have a name"
  | .computedArray => "'val' cannot be an array"
  | .computedUnnamed => "'val' field must have a name"
  | .computedWithoutExpression => "'val' needs an expression, e.g. val:(a+b)"
  | .unknownType name => s!"unknown type '{name}'"
  | .refusedDeclaration type => s!"type '{type}' does not accept this declaration"
  | .bitWidth width => s!"bit width must be within 1..=8, got {width}"
  | .alignment => "alignment must be positive"
  | .skipCount => "skip count must not be negative"
  | .parameterRange type value => s!"'{type}' parameter {value} out of range"
  | .noParameter type => s!"type '{type}' takes no parameter"
  | .unboundedRepeated => "unbounded array cannot be placed inside a repeated structure"
  | .arraySize size => s!"invalid array size {size}"
  | .duplicatePath path => s!"duplicate field path '{path}'"
  | .unmatchedClose => "unmatched '\x7d'"
  | .notClosed => "structure is not closed"
  | .notNumeric path => s!"field '{path}' is not a single numeric value"
  | .usedBeforeDeclared name => s!"field '{name}' is referenced before it is declared"
  | .unknownField name => s!"unknown field '{name}'"
  | .ambiguous name paths => s!"ambiguous field '{name}': " ++ ", ".intercalate paths

end Cause

/-- A refused script: the cause and its place. -/
structure Error where
  cause : Cause
  position : Position
  deriving DecidableEq, Repr

/-- The full wording of a refusal. -/
def Error.message (e : Error) : String :=
  (if e.cause.isReference then "reference error at " else "syntax error at ") ++
    e.position.render ++ ": " ++ e.cause.message

end RecordLayout.Script
