import RecordLayout.Proofs.Flat.Climbing
import RecordLayout.Proofs.Flat.Lookup

/-!
# Building blocks

A block is built from the tokens entry by entry. Whatever the builder refers to it refers to by
number: the names and whether they are integers in two tables side by side, the expressions in the
order in which they are met, the uses of custom types, and for an open structure the entry of its
opening brace, which learns the number of the closing one when that comes.
-/

namespace RecordLayout

/-- A structure that is not closed yet. -/
structure FlatScope where
  /-- The path of the names declared inside. -/
  path : String
  /-- The number of the entry of the opening brace. -/
  start : Nat
  /-- This structure or one around it is an array. -/
  repeated : Bool
  unbounded : Bool
  position : Position

/-- The tables that are built so far. -/
structure FlatBuilder where
  descriptors : List Descriptor
  names : List FieldInfo
  /-- For each name, whether it is a single integer. -/
  numeric : List Bool
  /-- The paths declared so far. -/
  paths : List String
  evaluators : List AttachedEvaluator
  customs : List CustomDecl
  /-- The open structures, the innermost first. -/
  scopes : List FlatScope
  /-- Where the unbounded array stands, once it is complete. -/
  ended : Option Position

/-- What the kind of a field and its parts come to, with numbers for what is in tables. -/
structure FlatField where
  kind : Kind
  custom : Option Nat
  amount : Option ListedAmount
  length : Option ListedLength

/-- A constant parameter of a kind of declaration. -/
def Kind.constantAmount (kind : Kind) (position : Position) (n : Int64) : Halting ListedAmount :=
  if kind = .builtIn .bit ∧ ¬ (1 ≤ n ∧ n ≤ 8) then refuse (.bitWidth n) position
  else if kind = .builtIn .align ∧ n < 1 then refuse .alignment position
  else if kind = .builtIn .skip ∧ n < 0 then refuse .skipCount position
  else if kind = .builtIn .computed ∨ 0 ≤ n ∧ n < 0x100000000 then
    pure (.const n.toUInt64.toUInt32)
  else refuse (.parameterRange kind.name n) position

/-- A parameter may be written. -/
def Kind.takesAmount : Kind → Bool
  | .builtIn .bit | .builtIn .align | .builtIn .skip | .builtIn .computed | .custom => true
  | _ => false

namespace FlatBuilder

/-- Nothing is built yet. -/
def empty : FlatBuilder := ⟨[], [], [], [], [], [], [], none⟩

/-- The path of the innermost open structure. -/
def path (f : FlatBuilder) : String := (f.scopes.head?.map FlatScope.path).getD ""

/-- An array surrounds the next declaration. -/
def repeated (f : FlatBuilder) : Bool := (f.scopes.head?.map FlatScope.repeated).getD false

/-- What names are looked up in. -/
def tables (options : CompileOptions) (paths : List String) (f : FlatBuilder) : NameTables where
  externals := options.externals
  paths := paths
  enclosing := f.scopes.map FlatScope.path
  names := f.names
  numeric := f.numeric

variable (options : CompileOptions) (paths : List String) (position : Position)

/-- The evaluator of an expression. -/
def expression (f : FlatBuilder) (text : String) : Halting Evaluator :=
  match Term.climbText text with
  | .ok climbed => do
    let t ← climbed
    t.build ((f.tables options paths).checked position) position
  | .error attempts =>
    refuse (.inExpression text attempts.position.column attempts.failed) position

/-- The builder with one more evaluator, and the number of it. -/
def attach (f : FlatBuilder) (index : Nat) (e : Evaluator) : Halting (Nat × FlatBuilder) := do
  let evaluators := f.evaluators ++ [⟨index, e⟩]
  let number ← lastNumber evaluators
  pure (number, { f with evaluators := evaluators })

/-- The kind of a field, with the number of its use of a custom type. -/
def fieldKind (f : FlatBuilder) (decl : Script.FieldDecl) :
    Halting (Kind × Option Nat × FlatBuilder) :=
  match BuiltIn.ofName decl.type with
  | some type => pure (.builtIn type, none, f)
  | none =>
    match LayoutBuilder.customUse options decl with
    | .error cause => refuse cause position
    | .ok use => do
      let customs := f.customs ++ [use.declared]
      let number ← lastNumber customs
      pure (.custom, some number, { f with customs := customs })

/-- A directive is neither an array nor named; a computed value is named and no array. -/
def checkParts (kind : Kind) (decl : Script.FieldDecl) : Halting Unit :=
  if kind.isDirective ∧ decl.size.isSome then refuse (.directiveArray decl.type) position
  else if kind.isDirective ∧ decl.name.isSome then refuse (.directiveName decl.type) position
  else if kind = .builtIn .computed ∧ decl.size.isSome then refuse .computedArray position
  else if kind = .builtIn .computed ∧ decl.name.isNone then refuse .computedUnnamed position
  else pure ()

/-- The parameter of a field. An expression that is a constant counts as one, except that a computed
value, which may be negative, keeps it. -/
def amount (f : FlatBuilder) (index : Nat) (kind : Kind) (extra : Option Script.Extra) :
    Halting (Option ListedAmount × FlatBuilder) :=
  match kind.takesAmount, extra with
  | false, none => pure (none, f)
  | false, some _ => refuse (.noParameter kind.name) position
  | true, none =>
    if kind = .custom then pure (none, f)
    else if kind = .builtIn .computed then refuse .computedWithoutExpression position
    else pure (some (.const 1), f)
  | true, some (.number n) => do
    let a ← kind.constantAmount position (.ofNat n.toNat)
    pure (some a, f)
  | true, some (.expression text) => do
    let e ← f.expression options paths position text
    let constant := if kind = .builtIn .computed then none else e.asConst
    match constant with
    | some n =>
      let a ← kind.constantAmount position n
      pure (some a, f)
    | none =>
      let (number, f) ← f.attach index e
      pure (some (.expr number), f)

/-- The length of an array. -/
def length (f : FlatBuilder) (index : Nat) (size : Option Script.Size) :
    Halting (Option ListedLength × FlatBuilder) :=
  match size with
  | none => pure (none, f)
  | some .unbounded =>
    if f.repeated then refuse .unboundedRepeated position
    else pure (some .unbounded, { f with ended := some position })
  | some (.expression text) => do
    let e ← f.expression options paths position text
    match e.asConst with
    | some n =>
      if 0 ≤ n ∧ n < 0x100000000 then pure (some (.const n.toUInt64.toUInt32), f)
      else refuse (.arraySize n) position
    | none =>
      let (number, f) ← f.attach index e
      pure (some (.expr number), f)

/-- Declares a name, if there is one, for the declaration with an index. -/
def declare (f : FlatBuilder) (index : Nat) (name : Option String) (numeric : Bool) :
    Halting (Option Nat × FlatBuilder) :=
  match name with
  | none => pure (none, f)
  | some name =>
    let path := joinPath f.path name
    if f.paths.contains path then refuse (.duplicatePath path) position
    else do
      let names := f.names ++ [⟨path, name, index⟩]
      let number ← lastNumber names
      pure (some number, { f with
        names := names, numeric := f.numeric ++ [numeric], paths := f.paths ++ [path] })

/-- Nothing may be declared behind an unbounded array. -/
def checkEnded (f : FlatBuilder) : Halting Unit :=
  match f.ended with
  | some array => refuse (.afterUnbounded array) position
  | none => pure ()

/-- What a field's kind, parameter and length come to. -/
def fieldParts (f : FlatBuilder) (index : Nat) (decl : Script.FieldDecl) :
    Halting (FlatField × FlatBuilder) := do
  let (kind, custom, f) ← f.fieldKind options position decl
  checkParts position kind decl
  let (amount, f) ← f.amount options paths position index kind decl.extra
  let (length, f) ← f.length options paths position index decl.size
  pure (⟨kind, custom, amount, length⟩, f)

/-- The builder after a field. -/
def field (f : FlatBuilder) (decl : Script.FieldDecl) : Halting FlatBuilder := do
  f.checkEnded position
  let index := f.descriptors.length
  let (parts, f) ← f.fieldParts options paths position index decl
  let (named, f) ← f.declare position index decl.name
    (parts.kind.isNumeric && parts.length.isNone)
  let info ← named.mapM (entryAt f.names)
  let entry : Descriptor := {
    kind := parts.kind
    typeName := if parts.kind = .custom then decl.type else parts.kind.name
    order := decl.order.getD options.order
    amount := parts.amount
    length := parts.length
    info := info
    named := named
    custom := parts.custom
    pair := none
    position := position }
  pure { f with descriptors := f.descriptors ++ [entry] }

/-- The builder after the opening of a structure. -/
def opening (f : FlatBuilder) (name : Option String) (size : Option Script.Size) :
    Halting FlatBuilder := do
  f.checkEnded position
  let index := f.descriptors.length
  let (length, f) ← f.length options paths position index size
  let unbounded := length = some .unbounded
  let f := if unbounded then { f with ended := none } else f
  let (named, f) ← f.declare position index name false
  let info ← named.mapM (entryAt f.names)
  let entry : Descriptor := {
    kind := .opening
    typeName := Kind.opening.name
    order := options.order
    amount := none
    length := length
    info := info
    named := named
    custom := none
    pair := none
    position := position }
  let scope : FlatScope := {
    path := (info.map FieldInfo.path).getD f.path
    start := index
    repeated := length.isSome || f.repeated
    unbounded := unbounded
    position := position }
  pure { f with descriptors := f.descriptors ++ [entry], scopes := scope :: f.scopes }

/-- The builder after the closing of a structure. -/
def closing (f : FlatBuilder) : Halting FlatBuilder :=
  match f.scopes with
  | [] => refuse .unmatchedClose position
  | scope :: scopes => do
    let index := f.descriptors.length
    let opening ← entryAt f.descriptors scope.start
    let descriptors := f.descriptors.set scope.start { opening with pair := some index }
    let opening ← entryAt descriptors scope.start
    let entry : Descriptor := {
      kind := .closing
      typeName := Kind.closing.name
      order := options.order
      amount := none
      length := none
      info := opening.info
      named := opening.named
      custom := none
      pair := some scope.start
      position := position }
    pure { f with
      descriptors := descriptors ++ [entry]
      scopes := scopes
      ended := if scope.unbounded then some scope.position else f.ended }

/-- The builder after a token. -/
def token (f : FlatBuilder) (t : Script.Token) : Halting FlatBuilder :=
  match t.declaration with
  | .field decl => f.field options paths t.position decl
  | .opening name size => f.opening options paths t.position name size
  | .closing => f.closing options t.position

/-- The block, once no structure is open. -/
def finish (f : FlatBuilder) : Halting Block :=
  match f.scopes with
  | [] => pure ⟨f.descriptors, f.names, f.evaluators, f.customs, options.customs⟩
  | scope :: _ => refuse .notClosed scope.position

end FlatBuilder

/-- The block of a script. -/
def compileBlock (options : CompileOptions) (source : String) : Halting Block := do
  let tokens ← Script.checkedTokens source
  let f ← tokens.foldlM (FlatBuilder.token options (Script.declaredPaths tokens)) .empty
  f.finish options

end RecordLayout
