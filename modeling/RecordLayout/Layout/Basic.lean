import RecordLayout.Custom
import RecordLayout.Expr.Basic
import RecordLayout.Layout.Kind
import RecordLayout.Text.Position

/-!
# Layouts

A layout is the meaning of a script: a sequence of declarations, in which a structure holds a layout
of its own. Every declaration has an index, counted in document order; the closing brace of a
structure takes an index as well. Expressions stand where their values are needed, with the names in
them resolved.
-/

namespace RecordLayout

/-- A parameter: a constant, or computed when it is needed. -/
inductive Amount where
  | const (n : UInt32)
  | computed (e : Expr)
  deriving DecidableEq, Repr

/-- The length of an array. -/
inductive Length where
  | const (n : UInt32)
  | computed (e : Expr)
  /-- As many elements as the stream holds. -/
  | unbounded
  deriving DecidableEq, Repr

/-- What a layout knows about a declaration of any kind. -/
structure Header where
  index : Nat
  /-- The declared name, if there is one. -/
  info : Option FieldInfo
  order : ByteOrder
  position : Position
  deriving DecidableEq, Repr

/-- A use of a custom type. -/
structure CustomUse where
  /-- The type name in the script. -/
  type : String
  /-- The place of the type among those the caller added. -/
  slot : Nat
  handler : CustomType

/-- The type of a value, or of the elements of an array. -/
inductive ElementType where
  | fixed (type : FixedType)
  | bit (width : Amount)
  | text
  | custom (use : CustomUse) (extra : Option Amount)

/-- A declaration other than a structure. -/
inductive Decl where
  | value (type : ElementType) (length : Option Length)
  /-- A computed value without bits of its own. -/
  | computed (amount : Amount)
  | align (n : Amount)
  | skip (n : Amount)
  /-- Counters start again from zero. -/
  | reset

/-- A sequence of declarations. -/
inductive Layout where
  | done
  | item (head : Header) (decl : Decl) (rest : Layout)
  /-- A structure, or an array of them, that closes at a place. -/
  | group (head : Header) (length : Option Length) (body : Layout) (closing : Position)
    (rest : Layout)

namespace ElementType

/-- The kind of a declaration of this type. -/
def kind : ElementType → Kind
  | fixed type => .builtIn (.fixed type)
  | bit _ => .builtIn .bit
  | text => .builtIn .text
  | custom _ _ => .custom

/-- The type name in the script. -/
def name : ElementType → String
  | custom use _ => use.type
  | type => type.kind.name

/-- The fewest bits that one element of an unbounded array takes, for a known bit width. -/
def leastBits (width : Nat) : ElementType → Nat
  | fixed type => 8 * type.size
  | bit _ => width
  | text => 8
  | custom _ _ => 1

end ElementType

namespace Decl

/-- The kind of a declaration. -/
def kind : Decl → Kind
  | value type _ => type.kind
  | computed _ => .builtIn .computed
  | align _ => .builtIn .align
  | skip _ => .builtIn .skip
  | reset => .builtIn .reset

/-- The type name in the script. -/
def typeName : Decl → String
  | value type _ => type.name
  | decl => decl.kind.name

/-- The array length of a declaration. -/
def length : Decl → Option Length
  | value _ length => length
  | _ => none

/-- The parameter of a declaration. -/
def amount : Decl → Option Amount
  | value (.bit width) _ => some width
  | value (.custom _ extra) _ => extra
  | value _ _ => none
  | computed amount => some amount
  | align n => some n
  | skip n => some n
  | reset => none

/-- The custom type a declaration uses. -/
def customUse : Decl → Option CustomUse
  | value (.custom use _) _ => some use
  | _ => none

end Decl

/-- What messages call a declaration: its path, or its type name and index. -/
def Header.describe (head : Header) (type : String) : String :=
  match head.info with
  | some info => info.path
  | none => type ++ " #" ++ toString head.index

namespace Layout

/-- One layout behind another. -/
def append : Layout → Layout → Layout
  | done, more => more
  | item head decl rest, more => item head decl (rest.append more)
  | group head length body closing rest, more =>
    group head length body closing (rest.append more)

instance : Append Layout := ⟨append⟩

@[simp] theorem done_append (l : Layout) : done ++ l = l := rfl

@[simp] theorem item_append (head : Header) (decl : Decl) (rest l : Layout) :
    item head decl rest ++ l = item head decl (rest ++ l) := rfl

@[simp] theorem group_append (head : Header) (length : Option Length) (body : Layout)
    (closing : Position) (rest l : Layout) :
    group head length body closing rest ++ l = group head length body closing (rest ++ l) := rfl

@[simp] theorem append_done (l : Layout) : l ++ done = l := by
  induction l with
  | done => rfl
  | item head decl rest ih => simp [ih]
  | group head length body closing rest _ ih => simp [ih]

theorem append_assoc (k l m : Layout) : k ++ l ++ m = k ++ (l ++ m) := by
  induction k with
  | done => rfl
  | item head decl rest ih => simp [ih]
  | group head length body closing rest _ ih => simp [ih]

/-- How many indexes the declarations take. -/
def size : Layout → Nat
  | done => 0
  | item _ _ rest => 1 + rest.size
  | group _ _ body _ rest => 2 + body.size + rest.size

theorem size_append (k l : Layout) : (k ++ l).size = k.size + l.size := by
  induction k with
  | done => simp [size]
  | item head decl rest ih => simp [size, ih]; omega
  | group head length body closing rest _ ih => simp [size, ih]; omega

/-- Some declaration takes a value, at any depth. -/
def holdsValue : Layout → Bool
  | done => false
  | item _ decl rest => decl.kind.holdsValue || rest.holdsValue
  | group _ _ body _ rest => body.holdsValue || rest.holdsValue

/-- The number of elements that is certain before the pass: one where there is no array. -/
def certainCount : Option Length → Nat
  | none => 1
  | some (.const n) => n.toNat
  | some _ => 0

end Layout

/-- The bits that one element certainly takes. -/
def Decl.certainBits : Decl → Nat
  | .value (.fixed type) _ => 8 * type.size
  | .value (.bit (.const width)) _ => width.toNat
  | .value (.bit (.computed _)) _ => 1
  | .value .text _ => 8
  | .value (.custom _ _) _ => 0
  | .skip (.const n) => 8 * n.toNat
  | _ => 0

/-- The bits that a layout certainly takes: only constant widths, lengths and skips count. -/
def Layout.certainBits : Layout → Nat
  | .done => 0
  | .item _ decl rest =>
    Layout.certainCount decl.length * decl.certainBits + rest.certainBits
  | .group _ length body _ rest =>
    Layout.certainCount length * body.certainBits + rest.certainBits

end RecordLayout
