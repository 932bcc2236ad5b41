import RecordLayout.Layout.Scope
import RecordLayout.Script.Tokenize

/-!
# Compiling a script

A layout is built from the tokens one by one. The builder holds the structures that are open, each
with what its surroundings held before it, and the declarations of the innermost one. The first
fault of the first faulty token is reported at that token; a structure left open is reported last.

An unbounded array takes the rest of the stream, so nothing but closing braces may follow it and
nothing may repeat it.
-/

namespace RecordLayout

/-- A compiled script. -/
structure Schema where
  source : String
  layout : Layout

/-- A structure that is not closed yet. -/
structure OpenStruct where
  head : Header
  length : Option Length
  /-- The path of the names declared inside. -/
  path : String
  /-- This structure or one around it is an array. -/
  repeated : Bool
  /-- What the surrounding structure holds before this one. -/
  before : Layout

/-- What is built so far. -/
structure LayoutBuilder where
  /-- The index of the next declaration. -/
  next : Nat
  declared : List Declared
  /-- The open structures, the innermost first. -/
  opened : List OpenStruct
  /-- The declarations of the innermost open structure. -/
  body : Layout
  /-- Where the unbounded array stands, once it is complete. -/
  ended : Option Position

namespace LayoutBuilder

/-- Nothing is built yet. -/
def empty : LayoutBuilder := ⟨0, [], [], .done, none⟩

/-- The path of the innermost open structure. -/
def path (b : LayoutBuilder) : String := (b.opened.head?.map OpenStruct.path).getD ""

/-- An array surrounds the next declaration. -/
def repeated (b : LayoutBuilder) : Bool := (b.opened.head?.map OpenStruct.repeated).getD false

/-- What the next declaration's expressions see. -/
def scope (options : CompileOptions) (paths : List String) (b : LayoutBuilder) : Scope :=
  ⟨options.externals, paths, b.opened.map OpenStruct.path, b.declared⟩

/-- A constant parameter of a kind of declaration. -/
def constant (kind : Kind) (n : Int64) : Except Script.Cause Amount :=
  if kind = .builtIn .bit ∧ ¬ (1 ≤ n ∧ n ≤ 8) then .error (.bitWidth n)
  else if kind = .builtIn .align ∧ n < 1 then .error .alignment
  else if kind = .builtIn .skip ∧ n < 0 then .error .skipCount
  else if 0 ≤ n ∧ n < 0x100000000 then .ok (.const n.toUInt64.toUInt32)
  else .error (.parameterRange kind.name n)

/-- A parameter; an expression that is a constant counts as one. -/
def amount (scope : Scope) (kind : Kind) : Script.Extra → Except Script.Cause Amount
  | .number n => constant kind (.ofNat n.toNat)
  | .expression text => do
    match ← Expr.ofText scope.names text with
    | .const n => constant kind n
    | e => .ok (.computed e)

/-- The parameter of a computed value; its constants may be negative. -/
def computedAmount (scope : Scope) : Option Script.Extra → Except Script.Cause Amount
  | none => .error .computedWithoutExpression
  | some (.number n) => .ok (.const n)
  | some (.expression text) => .computed <$> Expr.ofText scope.names text

/-- The parameter of a kind for which one is understood where none is written. -/
def amountOrOne (scope : Scope) (kind : Kind) : Option Script.Extra → Except Script.Cause Amount
  | none => .ok (.const 1)
  | some extra => amount scope kind extra

/-- The length of an array. -/
def arrayLength (scope : Scope) (repeated : Bool) :
    Option Script.Size → Except Script.Cause (Option Length)
  | none => .ok none
  | some .unbounded => if repeated then .error .unboundedRepeated else .ok (some .unbounded)
  | some (.expression text) => do
    match ← Expr.ofText scope.names text with
    | .const n =>
      if 0 ≤ n ∧ n < 0x100000000 then .ok (some (.const n.toUInt64.toUInt32))
      else .error (.arraySize n)
    | e => .ok (some (.computed e))

/-- Declares a name for the next declaration. -/
def declare (b : LayoutBuilder) (name : Option String) (numeric : Bool) :
    Except Script.Cause (Option FieldInfo × List Declared) :=
  match name with
  | none => .ok (none, b.declared)
  | some name =>
    let path := joinPath b.path name
    if b.declared.any (·.info.path == path) then .error (.duplicatePath path)
    else
      let info : FieldInfo := ⟨path, name, b.next⟩
      .ok (some info, b.declared ++ [⟨info, numeric⟩])

/-- No parameter may be written. -/
def noAmount (kind : Kind) : Option Script.Extra → Except Script.Cause Unit
  | none => .ok ()
  | some _ => .error (.noParameter kind.name)

/-- The custom type that a declaration uses. -/
def customUse (options : CompileOptions) (decl : Script.FieldDecl) :
    Except Script.Cause CustomUse :=
  match options.customs.findIdx? (·.names.contains decl.type) with
  | none => .error (.unknownType decl.type)
  | some slot =>
    match options.customs[slot]? with
    | none => .error (.unknownType decl.type)
    | some handler =>
      if handler.allows decl.type decl.extra.isSome decl.size.isSome then
        .ok ⟨decl.type, slot, handler⟩
      else .error (.refusedDeclaration decl.type)

/-- The type of a field that holds a value. -/
def elementType (scope : Scope) (options : CompileOptions) (decl : Script.FieldDecl) :
    Option BuiltIn → Except Script.Cause ElementType
  | some (.fixed type) => do
    noAmount (.builtIn (.fixed type)) decl.extra
    pure (.fixed type)
  | some .bit => .bit <$> amountOrOne scope (.builtIn .bit) decl.extra
  | some .text => do
    noAmount (.builtIn .text) decl.extra
    pure .text
  | _ => do
    let use ← customUse options decl
    match decl.extra with
    | none => pure (.custom use none)
    | some extra => (.custom use ∘ some) <$> amount scope .custom extra

/-- A directive is neither an array nor named. -/
def checkDirective (decl : Script.FieldDecl) : Except Script.Cause Unit :=
  if decl.size.isSome then .error (.directiveArray decl.type)
  else if decl.name.isSome then .error (.directiveName decl.type)
  else .ok ()

/-- A computed value is named and no array. -/
def checkComputed (decl : Script.FieldDecl) : Except Script.Cause Unit :=
  if decl.size.isSome then .error .computedArray
  else if decl.name.isNone then .error .computedUnnamed
  else .ok ()

/-- What a field declares, and whether its value is a single integer. -/
def fieldDecl (scope : Scope) (options : CompileOptions) (repeated : Bool)
    (decl : Script.FieldDecl) : Except Script.Cause (Decl × Bool) :=
  match BuiltIn.ofName decl.type with
  | some .align => do
    checkDirective decl
    let n ← amountOrOne scope (.builtIn .align) decl.extra
    pure (.align n, false)
  | some .skip => do
    checkDirective decl
    let n ← amountOrOne scope (.builtIn .skip) decl.extra
    pure (.skip n, false)
  | some .reset => do
    checkDirective decl
    noAmount (.builtIn .reset) decl.extra
    pure (.reset, false)
  | some .computed => do
    checkComputed decl
    let e ← computedAmount scope decl.extra
    pure (.computed e, true)
  | type => do
    let element ← elementType scope options decl type
    let length ← arrayLength scope repeated decl.size
    pure (.value element length, element.kind.isNumeric && length.isNone)

/-- Nothing may be declared behind an unbounded array. -/
def checkEnded (b : LayoutBuilder) : Except Script.Cause Unit :=
  match b.ended with
  | some array => .error (.afterUnbounded array)
  | none => .ok ()

/-- The builder after a field. -/
def field (options : CompileOptions) (paths : List String) (b : LayoutBuilder)
    (position : Position) (decl : Script.FieldDecl) : Except Script.Cause LayoutBuilder := do
  b.checkEnded
  let (item, numeric) ← fieldDecl (b.scope options paths) options b.repeated decl
  let (info, declared) ← b.declare decl.name numeric
  let head : Header := ⟨b.next, info, decl.order.getD options.order, position⟩
  pure { b with
    next := b.next + 1, declared := declared, body := b.body ++ .item head item .done,
    ended := if item.length = some .unbounded then some position else none }

/-- The builder after the opening of a structure. -/
def opening (options : CompileOptions) (paths : List String) (b : LayoutBuilder)
    (position : Position) (name : Option String) (size : Option Script.Size) :
    Except Script.Cause LayoutBuilder := do
  b.checkEnded
  let length ← arrayLength (b.scope options paths) b.repeated size
  let (info, declared) ← b.declare name false
  let head : Header := ⟨b.next, info, options.order, position⟩
  let inside : OpenStruct :=
    ⟨head, length, (info.map FieldInfo.path).getD b.path, length.isSome || b.repeated, b.body⟩
  pure ⟨b.next + 1, declared, inside :: b.opened, .done, none⟩

/-- The builder after the closing of a structure. -/
def closing (b : LayoutBuilder) (position : Position) : Except Script.Cause LayoutBuilder :=
  match b.opened with
  | [] => .error .unmatchedClose
  | s :: opened =>
    .ok { b with
      next := b.next + 1, opened := opened,
      body := s.before ++ .group s.head s.length b.body position .done,
      ended := if s.length = some .unbounded then some s.head.position else b.ended }

/-- The builder after a declaration. -/
def add (options : CompileOptions) (paths : List String) (b : LayoutBuilder)
    (position : Position) : Script.Declaration → Except Script.Cause LayoutBuilder
  | .field decl => b.field options paths position decl
  | .opening name size => b.opening options paths position name size
  | .closing => b.closing position

/-- The builder after a token. -/
def token (options : CompileOptions) (paths : List String) (b : LayoutBuilder)
    (t : Script.Token) : Except Script.Error LayoutBuilder :=
  (b.add options paths t.position t.declaration).mapError (⟨·, t.position⟩)

/-- The layout, once no structure is open. -/
def finish (b : LayoutBuilder) : Except Script.Error Layout :=
  match b.opened with
  | [] => .ok b.body
  | s :: _ => .error ⟨.notClosed, s.head.position⟩

end LayoutBuilder

/-- The layout of a sequence of tokens. -/
def Layout.ofTokens (options : CompileOptions) (tokens : List Script.Token) :
    Except Script.Error Layout := do
  let b ← tokens.foldlM (LayoutBuilder.token options (Script.declaredPaths tokens)) .empty
  b.finish

/-- Compiles a script. -/
def compile (options : CompileOptions) (source : String) : Except Script.Error Schema := do
  let tokens ← Script.tokenize source
  let layout ← Layout.ofTokens options tokens
  pure ⟨source, layout⟩

end RecordLayout
