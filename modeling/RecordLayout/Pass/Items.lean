import RecordLayout.Error
import RecordLayout.Layout.Basic

/-!
# Items of a record

Before it is written a tree is laid out as a sequence of items in document order: the values of its
leaves, and in front of the elements of each structure array their number. Computed values and
directives take no item. The tree has to fit the layout node by node, but it may end early, at any
depth; then the sequence ends there as well.
-/

namespace RecordLayout

/-- An item of a record. -/
inductive Item where
  | value (v : Value)
  /-- The number of elements of the structure array that follows. -/
  | elements (count : Nat)

namespace Item

/-- The items of a part of a tree, and whether the tree goes on behind it. -/
abbrev Laid := List Item × Bool

/-- One part behind another, which counts only if the tree goes on. -/
def andThen (first : Laid) (second : Unit → Except Error Laid) : Except Error Laid :=
  if first.2 then do
    let more ← second ()
    pure (first.1 ++ more.1, more.2)
  else pure first

/-- A node that carries a name must carry that of the declaration it is taken for. -/
def checkPlace (head : Header) (node : Field) : Except Error Unit :=
  match node.info with
  | some info => if info.index = head.index then .ok () else .error (.misplaced info.path head.index)
  | none => .ok ()

/-- The items of the elements of a structure array. -/
def ofElements (shape : Error) (body : List Field → Except Error Laid) :
    List Value → Except Error Laid
  | [] => .ok ([], true)
  | .struct fields :: rest => do
    let first ← body fields
    andThen first fun _ => ofElements shape body rest
  | _ :: _ => .error shape

/-- The items of a structure or an array of structures. -/
def ofGroup (head : Header) (length : Option Length) (body : List Field → Except Error Laid)
    (v : Value) : Except Error Laid :=
  let shape : Error := .wrongShape head.index Kind.opening.name
  match length, v with
  | none, .struct fields => body fields
  | some _, .list items => do
    let laid ← ofElements shape body items
    pure (.elements items.length :: laid.1, laid.2)
  | _, _ => .error shape

/-- The items that a node gives for a declaration other than a structure. -/
def ofNode (decl : Decl) (node : Field) : List Item :=
  if decl.kind.holdsValue then [.value node.value] else []

/-- The items of the nodes of a layout. -/
def ofFields : Layout → List Field → Except Error Laid
  | .done, [] => .ok ([], true)
  | .done, extra :: _ => .error (.extraField extra.path)
  | .item head decl rest, nodes =>
    if decl.kind.isDirective then ofFields rest nodes
    else
      match nodes with
      | [] => .ok ([], false)
      | node :: nodes => do
        checkPlace head node
        andThen (ofNode decl node, true) fun _ => ofFields rest nodes
  | .group _ _ _ _ _, [] => .ok ([], false)
  | .group head length body _ rest, node :: nodes => do
    checkPlace head node
    let first ← ofGroup head length (ofFields body) node.value
    andThen first fun _ => ofFields rest nodes

/-- The items of a tree. -/
def ofTree (layout : Layout) (tree : Field) : Except Error Laid :=
  match tree.value with
  | .struct fields => ofFields layout fields
  | _ => .error .rootNotStruct

end Item

end RecordLayout
