import RecordLayout.Layout.Basic

/-!
# Values of a type

Every built-in type has one form of value, and a value of a type of whole bytes is one number of
that many bytes. A read makes the value from the number; a write first brings a supplied value into
the form that a read would give, cutting integers to the width of the type, and then takes the
number back.
-/

namespace RecordLayout

namespace FixedType

/-- The value that a number stands for. -/
def ofNumber (n : Nat) : FixedType → Except Error Value
  | bool =>
    if n = 0 then .ok (.bool false)
    else if n = 1 then .ok (.bool true)
    else .error (.boolByte (.ofNat n))
  | byte => .ok (.byte (UInt8.ofNat n).toInt8)
  | ubyte => .ok (.ubyte (.ofNat n))
  | short => .ok (.short (UInt16.ofNat n).toInt16)
  | ushort => .ok (.ushort (.ofNat n))
  | int => .ok (.int (UInt32.ofNat n).toInt32)
  | uint => .ok (.uint (.ofNat n))
  | long => .ok (.long (UInt64.ofNat n).toInt64)
  | float => .ok (.float ⟨.ofNat n⟩)
  | double => .ok (.double ⟨.ofNat n⟩)

/-- A supplied value in the form of the type. -/
def normalize (v : Value) : FixedType → Option Value
  | bool => v.asBool.map .bool
  | byte => v.asInt.map fun n => .byte n.toInt8
  | ubyte => v.asInt.map fun n => .ubyte n.toUInt64.toUInt8
  | short => v.asInt.map fun n => .short n.toInt16
  | ushort => v.asInt.map fun n => .ushort n.toUInt64.toUInt16
  | int => v.asInt.map fun n => .int n.toInt32
  | uint => v.asInt.map fun n => .uint n.toUInt64.toUInt32
  | long => v.asInt.map .long
  | float => v.asDouble.map fun x => .float x.narrow
  | double => v.asDouble.map .double

end FixedType

/-- The number that a value of a type of whole bytes is written as. -/
def Value.number : Value → Nat
  | bool x => x.toNat
  | byte x => x.toUInt8.toNat
  | ubyte x => x.toNat
  | short x => x.toUInt16.toNat
  | ushort x => x.toNat
  | int x => x.toUInt32.toNat
  | uint x => x.toNat
  | long x => x.toUInt64.toNat
  | float x => x.bits.toNat
  | double x => x.bits.toNat
  | bit x => x.toNat
  | _ => 0

namespace ElementType

/-- The elements are single bytes, so that an array of them is a byte string. -/
def isByte : ElementType → Bool
  | fixed .byte | fixed .ubyte => true
  | _ => false

/-- A supplied value in the form of the type, for a known bit width. Custom types have no form of
their own. -/
def normalize (width : Nat) (v : Value) : ElementType → Option Value
  | fixed type => type.normalize v
  | bit _ => v.asInt.map fun n => .bit (.ofNat (n.toUInt64.toNat % 2 ^ width))
  | text =>
    match v with
    | .text t => some (.text t)
    | _ => none
  | custom _ _ => none

end ElementType

end RecordLayout
