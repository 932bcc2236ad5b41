/-!
# Declared names

What a layout knows about a named declaration: the short name as written, the path through the
enclosing named structures, and the index of the declaration in the layout.
-/

namespace RecordLayout

/-- A declared name. -/
structure FieldInfo where
  /-- The names of the enclosing structures and of the declaration, with points between. -/
  path : String
  name : String
  /-- The index of the declaration. -/
  index : Nat
  deriving DecidableEq, Repr

/-- The path of a name declared inside a structure with this path; the empty path is the top
level. -/
def joinPath (outer name : String) : String :=
  if outer.isEmpty then name else outer ++ "." ++ name

/-- The path is the name or ends with a point and the name. -/
def pathMatches (path name : String) : Bool :=
  path == name || ('.' :: name.toList).isSuffixOf path.toList

end RecordLayout
