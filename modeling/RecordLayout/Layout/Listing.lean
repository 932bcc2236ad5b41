import RecordLayout.Layout.Basic

/-!
# Listings

A layout written out flat, one entry for each index. Where the layout nests, the listing pairs the
entry of an opening brace with that of its closing brace; where the layout has an expression, the
listing has a number, counted in document order, into a list of expressions. Named declarations and
uses of custom types are numbered in the same way.
-/

namespace RecordLayout

/-- A parameter as a listing shows it. -/
inductive ListedAmount where
  | const (n : UInt32)
  | expr (number : Nat)
  deriving DecidableEq, Repr

/-- An array length as a listing shows it. -/
inductive ListedLength where
  | const (n : UInt32)
  | expr (number : Nat)
  | unbounded
  deriving DecidableEq, Repr

/-- An entry of a listing. -/
structure Descriptor where
  kind : Kind
  typeName : String
  order : ByteOrder
  amount : Option ListedAmount
  length : Option ListedLength
  info : Option FieldInfo
  /-- The number of the declared name. -/
  named : Option Nat
  /-- The number of the use of a custom type. -/
  custom : Option Nat
  /-- The index of the other brace of a structure. -/
  pair : Option Nat
  position : Position
  deriving DecidableEq, Repr

/-- An expression with the index of the declaration it belongs to. -/
structure AttachedExpr where
  declaration : Nat
  expr : Expr
  deriving DecidableEq, Repr

/-- The numbers that the next expression, name and custom use get. -/
structure ListingNumbers where
  exprs : Nat
  names : Nat
  customs : Nat

namespace ListingNumbers

/-- A parameter with its number, and the numbers after it. -/
def amount (n : ListingNumbers) : Option Amount → Option ListedAmount × ListingNumbers
  | none => (none, n)
  | some (.const k) => (some (.const k), n)
  | some (.computed _) => (some (.expr n.exprs), { n with exprs := n.exprs + 1 })

/-- A length with its number, and the numbers after it. -/
def length (n : ListingNumbers) : Option Length → Option ListedLength × ListingNumbers
  | none => (none, n)
  | some (.const k) => (some (.const k), n)
  | some .unbounded => (some .unbounded, n)
  | some (.computed _) => (some (.expr n.exprs), { n with exprs := n.exprs + 1 })

/-- The number of a name, and the numbers after it. -/
def name (n : ListingNumbers) : Option FieldInfo → Option Nat × ListingNumbers
  | none => (none, n)
  | some _ => (some n.names, { n with names := n.names + 1 })

/-- The number of a use of a custom type, and the numbers after it. -/
def custom (n : ListingNumbers) : Option CustomUse → Option Nat × ListingNumbers
  | none => (none, n)
  | some _ => (some n.customs, { n with customs := n.customs + 1 })

end ListingNumbers

namespace Layout

/-- The entries of a layout and the numbers after it. -/
def listFrom (n : ListingNumbers) : Layout → List Descriptor × ListingNumbers
  | done => ([], n)
  | item head decl rest =>
    let (custom, n) := n.custom decl.customUse
    let (amount, n) := n.amount decl.amount
    let (length, n) := n.length decl.length
    let (named, n) := n.name head.info
    let (more, n) := listFrom n rest
    (⟨decl.kind, decl.typeName, head.order, amount, length, head.info, named, custom, none,
      head.position⟩ :: more, n)
  | group head len body closing rest =>
    let (length, n) := n.length len
    let (named, n) := n.name head.info
    let (inner, n) := listFrom n body
    let (more, n) := listFrom n rest
    let close := head.index + inner.length + 1
    (⟨.opening, Kind.opening.name, head.order, none, length, head.info, named, none, some close,
      head.position⟩ ::
      inner ++
      ⟨.closing, Kind.closing.name, head.order, none, none, head.info, named, none,
        some head.index, closing⟩ :: more, n)

/-- The entries of a layout. -/
def descriptors (l : Layout) : List Descriptor := (listFrom ⟨0, 0, 0⟩ l).1

theorem length_listFrom (n : ListingNumbers) (l : Layout) : (listFrom n l).1.length = l.size := by
  induction l generalizing n with
  | done => rfl
  | item head decl rest ih => simp [listFrom, size, ih]; omega
  | group head length body closing rest ihb ih => simp [listFrom, size, ihb, ih]; omega

/-- A listing has an entry for each index. -/
theorem length_descriptors (l : Layout) : l.descriptors.length = l.size :=
  length_listFrom ⟨0, 0, 0⟩ l

/-- The declared names in document order. -/
def infos : Layout → List FieldInfo
  | done => []
  | item head _ rest => head.info.toList ++ rest.infos
  | group head _ body _ rest => head.info.toList ++ body.infos ++ rest.infos

/-- The uses of custom types in document order. -/
def customUses : Layout → List CustomUse
  | done => []
  | item _ decl rest => decl.customUse.toList ++ rest.customUses
  | group _ _ body _ rest => body.customUses ++ rest.customUses

end Layout

/-- The expression of a parameter. -/
def Amount.expr? : Amount → Option Expr
  | .const _ => none
  | .computed e => some e

/-- The expression of a length. -/
def Length.expr? : Length → Option Expr
  | .computed e => some e
  | _ => none

/-- The expressions of a declaration, the parameter's first. -/
def Decl.exprs (decl : Decl) : List Expr :=
  (decl.amount.bind Amount.expr?).toList ++ (decl.length.bind Length.expr?).toList

namespace Layout

/-- The expressions of a layout in document order. -/
def exprs : Layout → List AttachedExpr
  | done => []
  | item head decl rest => decl.exprs.map (⟨head.index, ·⟩) ++ rest.exprs
  | group head length body _ rest =>
    (length.bind Length.expr?).toList.map (⟨head.index, ·⟩) ++ body.exprs ++ rest.exprs

/-- The name declared with a path. -/
def findName? (l : Layout) (path : String) : Option FieldInfo :=
  l.infos.find? (·.path == path)

end Layout

end RecordLayout
