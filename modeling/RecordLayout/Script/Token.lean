import RecordLayout.Bits.Order
import RecordLayout.Script.Error

/-!
# Tokens of a script

A script is a flat sequence of declarations: a field, the opening of a structure, or the closing of
one. Expressions are still text here; names are not resolved and braces are not matched.
-/

namespace RecordLayout.Script

/-- The parameter after the colon of a type. -/
inductive Extra where
  | number (value : UInt32)
  | expression (text : String)
  deriving DecidableEq, Repr

/-- What stands in the brackets of an array. -/
inductive Size where
  /-- The array goes on to the end of the stream. -/
  | unbounded
  | expression (text : String)
  deriving DecidableEq, Repr

/-- A field as written. -/
structure FieldDecl where
  order : Option ByteOrder
  type : String
  extra : Option Extra
  size : Option Size
  name : Option String
  deriving DecidableEq, Repr

/-- One declaration of a script. -/
inductive Declaration where
  | field (decl : FieldDecl)
  /-- A structure opens. -/
  | opening (name : Option String) (size : Option Size)
  /-- A structure closes. -/
  | closing
  deriving DecidableEq, Repr

/-- A declaration with its source text and place. -/
structure Token where
  declaration : Declaration
  text : String
  position : Position
  deriving DecidableEq, Repr

end RecordLayout.Script
