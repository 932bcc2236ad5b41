import RecordLayout.Number.Shortest
import RecordLayout.Text.Quoted
import RecordLayout.Value.Basic

/-!
# Values as text

Three forms. The scalar form is what a person reads: numerals, quoted text, bits with the mark of
the binary system. The dump shows a whole tree, one field a line and its members two blanks further
in. The described form appears in messages and names the constructor of everything it shows.
-/

namespace RecordLayout

/-- Two hexadecimal digits. -/
def hexByte (b : UInt8) : String :=
  let digits := Text.Quoted.digits 16 b.toNat
  if b.toNat < 16 then "0" ++ digits else digits

/-- A truth value. -/
def boolText (b : Bool) : String := if b then "true" else "false"

namespace Value

/-- A scalar as a person reads it; arrays and structures have no such form. -/
def scalarText : Value → Option String
  | bool x => some (boolText x)
  | byte x => some (toString x.toInt)
  | ubyte x => some (toString x.toNat)
  | short x => some (toString x.toInt)
  | ushort x => some (toString x.toNat)
  | int x => some (toString x.toInt)
  | uint x => some (toString x.toNat)
  | long x => some (toString x.toInt)
  | float x => some (x.render .plain)
  | double x => some (x.render .plain)
  | bit x => some ("0b" ++ Text.Quoted.digits 2 x.toNat)
  | text (some t) => some (Text.Quoted.encode t)
  | text none => some "null"
  | bytes _ | list _ | struct _ => none

/-! ## Dumps -/

/-- The blanks before a line. -/
def margin (depth : Nat) : String := String.ofList (List.replicate (2 * depth) ' ')

/-- What stands before a value: the margin, and the label if there is one. -/
def heading (label : String) (depth : Nat) : String :=
  if label.isEmpty then margin depth else margin depth ++ label ++ ": "

mutual

/-- The lines of a value under a label. -/
def lines (label : String) (depth : Nat) : Value → List String
  | bytes x => [heading label depth ++ "hex(" ++ " ".intercalate (x.map hexByte) ++ ")"]
  | struct fields =>
    (heading label depth ++ "\x7b") :: fieldLines (depth + 1) fields ++ [margin depth ++ "\x7d"]
  | list items =>
    if items.all fun item => item.scalarText.isSome then
      [heading label depth ++ "[" ++ ", ".intercalate (items.filterMap scalarText) ++ "]"]
    else (heading label depth ++ "[") :: itemLines (depth + 1) 0 items ++ [margin depth ++ "]"]
  | v => [heading label depth ++ v.scalarText.getD ""]

/-- The lines of fields, each under its name. -/
def fieldLines (depth : Nat) : List Field → List String
  | [] => []
  | ⟨info, value, _⟩ :: rest =>
    lines ((info.map FieldInfo.name).getD "_") depth value ++ fieldLines depth rest

/-- The lines of elements, each under its index, the first of which is `i`. -/
def itemLines (depth i : Nat) : List Value → List String
  | [] => []
  | item :: rest => lines ("[" ++ toString i ++ "]") depth item ++ itemLines depth (i + 1) rest

end

/-! ## Descriptions -/

/-- An optional part of a description. -/
def describeOption : Option String → String
  | some t => "Some(" ++ t ++ ")"
  | none => "None"

/-- The description of a declared name. -/
def describeInfo (info : FieldInfo) : String :=
  "NamedFieldInfo \x7b path: " ++ Text.Quoted.encode info.path ++ ", name: " ++
    Text.Quoted.encode info.name ++ ", offset: " ++ toString info.index ++ " \x7d"

mutual

/-- A value with the constructors of everything in it. -/
def describe : Value → String
  | bool x => "Bool(" ++ boolText x ++ ")"
  | byte x => "Byte(" ++ toString x.toInt ++ ")"
  | ubyte x => "UByte(" ++ toString x.toNat ++ ")"
  | short x => "Short(" ++ toString x.toInt ++ ")"
  | ushort x => "UShort(" ++ toString x.toNat ++ ")"
  | int x => "Int(" ++ toString x.toInt ++ ")"
  | uint x => "UInt(" ++ toString x.toNat ++ ")"
  | long x => "Long(" ++ toString x.toInt ++ ")"
  | float x => "Float(" ++ x.render .marked ++ ")"
  | double x => "Double(" ++ x.render .marked ++ ")"
  | bit x => "Bit(" ++ toString x.toNat ++ ")"
  | text x => "Str(" ++ describeOption (x.map Text.Quoted.encode) ++ ")"
  | bytes x => "Bytes([" ++ ", ".intercalate (x.map fun b => toString b.toNat) ++ "])"
  | list items => "List([" ++ ", ".intercalate (describeItems items) ++ "])"
  | struct fields => "Struct([" ++ ", ".intercalate (describeFields fields) ++ "])"

/-- The descriptions of elements. -/
def describeItems : List Value → List String
  | [] => []
  | item :: rest => describe item :: describeItems rest

/-- The descriptions of fields. -/
def describeFields : List Field → List String
  | [] => []
  | ⟨info, value, payload⟩ :: rest =>
    ("Field \x7b info: " ++ describeOption (info.map describeInfo) ++ ", value: " ++
      describe value ++ ", payload: " ++
      describeOption (payload.map fun _ => "Any \x7b .. \x7d") ++ " \x7d") ::
      describeFields rest

end

end Value

/-- The dump of a tree. The name of the root is not shown. -/
def Field.dump (tree : Field) : String :=
  "\n".intercalate <|
    match tree.value with
    | .struct fields => Value.fieldLines 0 fields
    | v => v.lines "" 0

end RecordLayout
