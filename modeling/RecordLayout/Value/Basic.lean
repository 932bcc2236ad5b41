import RecordLayout.Layout.FieldInfo
import RecordLayout.Number.Binary

/-!
# Values and field trees

A decoded record is a tree. Its leaves are scalars of the layout language and byte strings; lists
hold the elements of an array, and structures hold fields, each a value with the name it was
declared under. A field also has a slot that belongs to whoever works with the tree and takes no
part in comparisons.
-/

namespace RecordLayout

/-- What a caller may attach to a field. -/
inductive Payload where
  | text (text : String)
  | number (number : Int)
  deriving DecidableEq, Repr

namespace Payload

/-- The payload, if it is text. -/
def asText : Payload → Option String
  | text t => some t
  | number _ => none

/-- The payload, if it is a number. -/
def asNumber : Payload → Option Int
  | text _ => none
  | number n => some n

end Payload

mutual

/-- A value of a field. -/
inductive Value where
  | bool (x : Bool)
  | byte (x : Int8)
  | ubyte (x : UInt8)
  | short (x : Int16)
  | ushort (x : UInt16)
  | int (x : Int32)
  | uint (x : UInt32)
  | long (x : Int64)
  | float (x : Binary32)
  | double (x : Binary64)
  /-- A number of at most eight bits. -/
  | bit (x : UInt8)
  /-- A text, or the mark that there is none. -/
  | text (x : Option String)
  /-- An array of bytes. -/
  | bytes (x : List UInt8)
  /-- An array of anything else. -/
  | list (items : List Value)
  | struct (fields : List Field)

/-- A node of a field tree. -/
structure Field where
  /-- The declared name; the root and unnamed declarations have none. -/
  info : Option FieldInfo
  value : Value
  payload : Option Payload

end

instance : Inhabited Value := ⟨.struct []⟩

namespace Field

/-- A field as a decode produces it. -/
def new (info : Option FieldInfo) (value : Value) : Field := ⟨info, value, none⟩

/-- A field without a name. -/
def unnamed (value : Value) : Field := new none value

instance : Inhabited Field := ⟨unnamed default⟩

/-- The short name. -/
def name (f : Field) : Option String := f.info.map FieldInfo.name

/-- The path. -/
def path (f : Field) : Option String := f.info.map FieldInfo.path

end Field

namespace Value

/-- The value as a signed word; texts, floats, arrays and structures have none. -/
def asInt : Value → Option Int64
  | bool x => some (if x then 1 else 0)
  | byte x => some x.toInt64
  | ubyte x => some (.ofNat x.toNat)
  | short x => some x.toInt64
  | ushort x => some (.ofNat x.toNat)
  | int x => some x.toInt64
  | uint x => some (.ofNat x.toNat)
  | long x => some x
  | bit x => some (.ofNat x.toNat)
  | _ => none

/-- The value as an unsigned word. -/
def asUnsigned (v : Value) : Option UInt64 := v.asInt.map Int64.toUInt64

/-- The value as a 64-bit float. -/
def asDouble : Value → Option Binary64
  | float x => some x.widen
  | double x => some x
  | v => v.asInt.map fun n => .ofInt n.toInt

/-- The value as a truth value: an integer is true unless it is zero. -/
def asBool : Value → Option Bool
  | bool x => some x
  | v => v.asInt.map (· != 0)

/-- The text, if there is one. -/
def asText : Value → Option String
  | text x => x
  | _ => none

/-- The bytes of a byte array. -/
def asBytes : Value → Option (List UInt8)
  | bytes x => some x
  | _ => none

/-- The elements of a list. -/
def asList : Value → Option (List Value)
  | list items => some items
  | _ => none

/-- The fields of a structure. -/
def asStruct : Value → Option (List Field)
  | struct fields => some fields
  | _ => none

/-- How many elements an array has; scalars and structures have no length. -/
def length? : Value → Option Nat
  | bytes x => some x.length
  | list items => some items.length
  | _ => none

/-- The value is an array without elements. -/
def isEmpty (v : Value) : Bool := v.length? == some 0

mutual

/-- Equal values. Floats compare as numbers, so a NaN differs from itself and zeros of both signs
are equal; payloads are not looked at. -/
def same : Value → Value → Bool
  | bool x, bool y => x == y
  | byte x, byte y => x == y
  | ubyte x, ubyte y => x == y
  | short x, short y => x == y
  | ushort x, ushort y => x == y
  | int x, int y => x == y
  | uint x, uint y => x == y
  | long x, long y => x == y
  | float x, float y => x.equal y
  | double x, double y => x.equal y
  | bit x, bit y => x == y
  | text x, text y => x == y
  | bytes x, bytes y => x == y
  | list xs, list ys => sameItems xs ys
  | struct xs, struct ys => sameFields xs ys
  | _, _ => false

/-- Equal lists of values. -/
def sameItems : List Value → List Value → Bool
  | [], [] => true
  | x :: xs, y :: ys => same x y && sameItems xs ys
  | _, _ => false

/-- Equal lists of fields. -/
def sameFields : List Field → List Field → Bool
  | [], [] => true
  | ⟨info, x, _⟩ :: xs, ⟨info', y, _⟩ :: ys =>
    info == info' && same x y && sameFields xs ys
  | _, _ => false

end

end Value

/-- Equal fields. -/
def Field.same (f g : Field) : Bool := f.info == g.info && f.value.same g.value

end RecordLayout
