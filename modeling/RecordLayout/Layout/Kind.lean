/-!
# Kinds of declarations

Every declaration of a layout is of one kind: a built-in type, a custom type, a directive, or the
opening or closing of a structure.
-/

namespace RecordLayout

/-- The built-in types that are a fixed number of whole bytes. -/
inductive FixedType where
  | bool
  | byte
  | ubyte
  | short
  | ushort
  | int
  | uint
  | long
  | float
  | double
  deriving DecidableEq, Repr

namespace FixedType

/-- How many bytes a value takes. -/
def size : FixedType → Nat
  | bool | byte | ubyte => 1
  | short | ushort => 2
  | int | uint | float => 4
  | long | double => 8

/-- The name in scripts. -/
def name : FixedType → String
  | bool => "bool"
  | byte => "byte"
  | ubyte => "ubyte"
  | short => "short"
  | ushort => "ushort"
  | int => "int"
  | uint => "uint"
  | long => "long"
  | float => "floatj"
  | double => "doublej"

/-- A value reads as an integer; a truth value reads as zero or one. -/
def isInteger : FixedType → Bool
  | float | double => false
  | _ => true

end FixedType

/-- The built-in types and directives, each with a type name in scripts. -/
inductive BuiltIn where
  | fixed (type : FixedType)
  | bit
  | text
  | align
  | skip
  /-- A computed value without bits of its own. -/
  | computed
  | reset
  deriving DecidableEq, Repr

namespace BuiltIn

/-- The type name in scripts. -/
def name : BuiltIn → String
  | fixed type => type.name
  | bit => "bit"
  | text => "stringj"
  | align => "align"
  | skip => "skip"
  | computed => "val"
  | reset => "reset$$"

/-- All built-in types. -/
def all : List BuiltIn :=
  [fixed .bool, fixed .byte, fixed .ubyte, fixed .short, fixed .ushort, fixed .int, fixed .uint,
    fixed .long, fixed .float, fixed .double, bit, text, align, skip, computed, reset]

/-- The built-in type with a name. -/
def ofName (name : String) : Option BuiltIn := all.find? (·.name == name)

/-- The value is an integer, so that expressions can refer to it. -/
def isNumeric : BuiltIn → Bool
  | fixed type => type.isInteger
  | bit | computed => true
  | _ => false

/-- Declarations that leave no node in a field tree. -/
def isDirective : BuiltIn → Bool
  | align | skip | reset => true
  | _ => false

/-- Declarations that take a value from the stream or from what a caller supplies. -/
def holdsValue : BuiltIn → Bool
  | fixed _ | bit | text => true
  | _ => false

/-- How many bits one value takes, where the type fixes it. -/
def fixedBits : BuiltIn → Option Nat
  | fixed type => some (8 * type.size)
  | _ => none

end BuiltIn

/-- The kind of a declaration. -/
inductive Kind where
  | builtIn (type : BuiltIn)
  | custom
  | opening
  | closing
  deriving DecidableEq, Repr

namespace Kind

/-- What scripts and messages call the kind. -/
def name : Kind → String
  | builtIn type => type.name
  | custom => "custom"
  | opening => "\x7b"
  | closing => "\x7d"

/-- The value is an integer, so that expressions can refer to it. -/
def isNumeric : Kind → Bool
  | builtIn type => type.isNumeric
  | _ => false

/-- Declarations that leave no node in a field tree. -/
def isDirective : Kind → Bool
  | builtIn type => type.isDirective
  | _ => false

/-- Declarations that take a value. -/
def holdsValue : Kind → Bool
  | builtIn type => type.holdsValue
  | custom => true
  | _ => false

/-- How many bits one value takes, where the kind fixes it. -/
def fixedBits : Kind → Option Nat
  | builtIn type => type.fixedBits
  | _ => none

end Kind

end RecordLayout
