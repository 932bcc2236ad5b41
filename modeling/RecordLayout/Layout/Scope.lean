import RecordLayout.Expr.Resolve
import RecordLayout.Layout.Basic
import RecordLayout.Script.Token

/-!
# Names in scope

While a layout is built, a name in an expression is looked up among the declarations met so far:
first inside the enclosing structures, from the innermost outwards, then as a full path, and then as
the end of a path, where the shortest path wins and must be the only one of its length. A name that
only a later declaration would answer to is an error; any other name is external.
-/

namespace RecordLayout

/-- Which names may be external. -/
inductive Externals where
  | any
  | only (names : List String)
  | none
  deriving DecidableEq, Repr

/-- The name may be external. -/
def Externals.allows : Externals → String → Bool
  | any, _ => true
  | only names, name => names.contains name
  | none, _ => false

/-- What a script is compiled with. -/
structure CompileOptions where
  /-- The byte order of fields that do not say theirs. -/
  order : ByteOrder := .big
  externals : Externals := .any
  customs : List CustomType := []

/-- A name declared so far. -/
structure Declared where
  info : FieldInfo
  /-- The declaration is a single integer. -/
  numeric : Bool
  deriving DecidableEq, Repr

namespace Script

/-- The paths that tokens declare, where `outer` are the paths of the structures open before them,
the innermost first. -/
def declaredFrom (outer : List String) : List Token → List String
  | [] => []
  | token :: rest =>
    let here := outer.head?.getD ""
    match token.declaration with
    | .field decl => (decl.name.map (joinPath here)).toList ++ declaredFrom outer rest
    | .opening (some name) _ =>
      joinPath here name :: declaredFrom (joinPath here name :: outer) rest
    | .opening none _ => declaredFrom (here :: outer) rest
    | .closing => declaredFrom outer.tail rest

/-- Every path that a script declares, in any scope. -/
def declaredPaths (tokens : List Token) : List String := declaredFrom [] tokens

end Script

/-- What names in an expression are looked up in. -/
structure Scope where
  externals : Externals
  /-- Every path of the script, declared so far or not. -/
  paths : List String
  /-- The paths of the enclosing structures, the innermost first. -/
  enclosing : List String
  /-- The names declared so far, in document order. -/
  declared : List Declared

namespace Scope

/-- The declaration with exactly this path. -/
def atPath? (s : Scope) (path : String) : Option Declared :=
  s.declared.find? (·.info.path == path)

/-- The declaration that an enclosing structure gives the name to. -/
def enclosed? (s : Scope) (name : String) : Option Declared :=
  s.enclosing.findSome? fun outer =>
    if outer.isEmpty then none else s.atPath? (joinPath outer name)

/-- The declarations with a path of least length among those whose path ends in the name. -/
def nearest (s : Scope) (name : String) : List Declared :=
  let found := s.declared.filter fun d => pathMatches d.info.path name
  found.filter fun d => found.all fun e => d.info.path.length ≤ e.info.path.length

/-- The declaration that a name refers to, if there is one among those met so far. -/
def lookup (s : Scope) (name : String) : Except Script.Cause (Option Declared) :=
  match s.enclosed? name <|> s.atPath? name with
  | some d => .ok (some d)
  | none =>
    match s.nearest name with
    | [] => .ok none
    | [d] => .ok (some d)
    | ds => .error (.ambiguous name (ds.map (·.info.path)))

/-- An external name, if the options allow it. -/
def external (s : Scope) (name : String) : Except Script.Cause Expr :=
  if s.externals.allows name then .ok (.external name) else .error (.unknownField name)

/-- What a name stands for. -/
def resolve (s : Scope) (name : String) : Except Script.Cause Expr := do
  match ← s.lookup name with
  | some d => if d.numeric then .ok (.field d.info) else .error (.notNumeric d.info.path)
  | none =>
    if s.paths.any (pathMatches · name) then .error (.usedBeforeDeclared name)
    else s.external name

/-- The names of a scope. -/
def names (s : Scope) : Names := ⟨s.resolve, s.external⟩

end Scope

end RecordLayout
