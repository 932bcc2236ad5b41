import RecordLayout.Expr.Operator
import RecordLayout.Text.Utf8
import RecordLayout.Value.Text

/-!
# Errors of a pass

What can stop the reading or writing of a record. Each error is a cause; its kind groups causes by
what went wrong: the arithmetic of an expression, the end of the stream, the device behind it, or
values and structure that do not fit the layout.
-/

namespace RecordLayout

/-- The kinds of errors. -/
inductive ErrorKind where
  | arithmetic
  | exhausted
  | device
  | structural
  deriving DecidableEq, Repr

/-- A quantity that an expression computes and that must not be negative. -/
inductive Quantity where
  | arrayLength
  | skipCount
  deriving DecidableEq, Repr

/-- What messages call the quantity. -/
def Quantity.noun : Quantity → String
  | .arrayLength => "array length"
  | .skipCount => "skip count"

/-- Why a pass stopped. -/
inductive Error where
  /-- A divisor is zero. -/
  | zeroDivisor (op : BinaryOp)
  /-- An expression names a field that has no value yet in this pass. -/
  | noValueYet (path : String)
  | negative (quantity : Quantity) (value : Int64)
  | badAlignment (value : Int64)
  /-- The stream ended inside a number of bits. -/
  | bitsMissing (needed available : Nat)
  /-- The stream ended inside a number of bytes. -/
  | bytesMissing (needed available : Nat)
  /-- The bits behind the last element are not all zero. -/
  | paddingNotZero (bits : Nat)
  /-- The source or the sink of the stream failed. -/
  | device (message : String)
  | widthOutOfRange (width : Nat)
  | bitWidth (width : Int64)
  /-- A text length is written in more bytes than it needs. -/
  | longTextLength (length : Nat)
  | textPrefix (byte : UInt8)
  | notUtf8 (fault : Text.Utf8.Fault)
  | textTooLong (bytes : Nat)
  | boolByte (byte : UInt8)
  /-- An expression needs an external value and the caller supplied no way to find one. -/
  | noResolver (name : String)
  | unresolved (name : String)
  /-- An element of an unbounded structure array takes nothing from the stream. -/
  | idleStructure (declaration : String)
  /-- An element of an unbounded array of another type takes nothing from the stream. -/
  | idleElement (type : String)
  /-- A structure of an unbounded array takes none of the supplied values. -/
  | takesNoValues (declaration : String)
  | rootNotStruct
  | leftOver (count : Nat)
  | foundArray (declaration : String)
  | noValue (declaration : String)
  | elementCount (declaration : String) (expected supplied : Nat)
  | notArray (declaration : String) (value : Value)
  | wrongType (declaration type : String) (value : Value)
  /-- A field of the tree belongs to another declaration. -/
  | misplaced (path : String) (declaration : Nat)
  | wrongShape (declaration : Nat) (type : String)
  | extraField (path : Option String)
  /-- A custom type refused. -/
  | custom (message : String)

namespace Error

/-- The kind of an error. -/
def kind : Error → ErrorKind
  | zeroDivisor _ | noValueYet _ | negative _ _ | badAlignment _ => .arithmetic
  | bitsMissing _ _ | bytesMissing _ _ | paddingNotZero _ => .exhausted
  | device _ => .device
  | _ => .structural

/-- A byte in hexadecimal behind the mark of that system. -/
def markedByte (b : UInt8) : String := "0x" ++ hexByte b

/-- The cause in words. -/
def detail : Error → String
  | zeroDivisor op => op.noun ++ " by zero"
  | noValueYet path => s!"field '{path}' has no numeric value yet"
  | negative quantity value => quantity.noun ++ s!" evaluated to {value}"
  | badAlignment value => s!"alignment evaluated to {value}"
  | bitsMissing needed available => s!"needed {needed} bits, only {available} available"
  | bytesMissing needed available => s!"needed {needed} bytes, only {available} available"
  | paddingNotZero bits => s!"{bits} trailing bits are not zero padding"
  | device message => message
  | widthOutOfRange width => s!"bit width {width} out of range 1..=64"
  | bitWidth width => s!"bit width {width} out of range 1..=8"
  | longTextLength length => s!"string length {length} is not in its shortest encoding"
  | textPrefix byte => "invalid string length prefix " ++ markedByte byte
  | notUtf8 fault => "string is not valid UTF-8: " ++ fault.message
  | textTooLong bytes => s!"string of {bytes} bytes is too long"
  | boolByte byte => "bool byte " ++ markedByte byte ++ " is neither 0 nor 1"
  | noResolver name => s!"no external value resolver for '{name}'"
  | unresolved name => s!"external field '{name}' is not resolved"
  | idleStructure declaration =>
    s!"element of unbounded array {declaration} consumes no data"
  | idleElement type => s!"element of unbounded {type} array consumes no data"
  | takesNoValues declaration =>
    s!"element of unbounded array {declaration} takes no values"
  | rootNotStruct => "tree root must be a structure"
  | leftOver count => s!"{count} values left over after the last field"
  | foundArray declaration => s!"expected a value for {declaration}, found a structure array"
  | noValue declaration => s!"no value supplied for {declaration}"
  | elementCount declaration expected supplied =>
    s!"{declaration} expects {expected} elements, got {supplied}"
  | notArray declaration value =>
    s!"{declaration} expects array value, got " ++ value.describe
  | wrongType declaration type value =>
    s!"{declaration} expects a {type} value, got " ++ value.describe
  | misplaced path declaration =>
    s!"tree field '{path}' found where declaration #{declaration} was expected"
  | wrongShape declaration type =>
    s!"tree node for declaration #{declaration} ({type}) has the wrong shape"
  | extraField path => "unexpected extra tree field " ++ path.getD "<unnamed>"
  | custom message => message

/-- What every message of a kind begins with. -/
def heading : ErrorKind → String
  | .arithmetic => "arithmetic: "
  | .exhausted => "unexpected end of stream: "
  | .device => "IO: "
  | .structural => "structure: "

/-- The full wording of an error. -/
def message (e : Error) : String := heading e.kind ++ e.detail

end Error

end RecordLayout
