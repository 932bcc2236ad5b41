import RecordLayout.Pass.Items
import RecordLayout.Proofs.Table.Lookup

/-!
# Items over blocks

A tree is laid out over a block as over a layout, entry by entry.
-/

namespace RecordLayout

/-- What was looked up, among the results of checked operations. -/
def Except.looked {α : Type} (lookup : Except Fault α) : Except Stopped α :=
  lookup.mapError Stopped.fault

/-- A result among those of checked operations. -/
def Except.plain {α : Type} (result : Except Error α) : Except Stopped α :=
  result.mapError Stopped.error

namespace Item.Checked

/-- One part behind another, which counts only if the tree goes on. -/
def andThen (first : Laid) (second : Unit → Except Stopped Laid) : Except Stopped Laid :=
  if first.2 then do
    let more ← second ()
    pure (first.1 ++ more.1, more.2)
  else pure first

/-- The items of the elements of a structure array. -/
def ofElements (shape : Error) (body : List Field → Except Stopped Laid) :
    List Value → Except Stopped Laid
  | [] => .ok ([], true)
  | .struct fields :: rest => do
    let first ← body fields
    andThen first fun _ => ofElements shape body rest
  | _ :: _ => .error (.error shape)

/-- The items of a structure or an array of structures. -/
def ofGroup (head : Header) (length : Option Length) (body : List Field → Except Stopped Laid)
    (v : Value) : Except Stopped Laid :=
  let shape : Error := .wrongShape head.index Kind.opening.name
  match length, v with
  | none, .struct fields => body fields
  | some _, .list items => do
    let laid ← ofElements shape body items
    pure (.elements items.length :: laid.1, laid.2)
  | _, _ => .error (.error shape)

variable {shape : Error} {body : List Field → Except Error Laid}

/-- Parts are laid out one behind the other without a fault. -/
theorem andThen_plain (first : Laid) (second : Unit → Except Error Laid) :
    andThen first (fun u => Except.plain (second u)) = Except.plain (Item.andThen first second) := by
  unfold andThen Item.andThen
  split
  · dsimp only
    cases second () <;> rfl
  · rfl

theorem plain_bind {α β : Type} (result : Except Error α) (g : α → Except Error β) :
    (Except.plain result >>= fun x => Except.plain (g x)) = Except.plain (result >>= g) := by
  cases result <;> rfl

/-- Elements are, by induction over them. -/
theorem ofElements_plain (items : List Value) :
    ofElements shape (fun fields => Except.plain (body fields)) items =
      Except.plain (Item.ofElements shape body items) := by
  induction items with
  | nil => rfl
  | cons v rest ih =>
    cases v with
    | struct fields =>
      simp only [ofElements, Item.ofElements, ih, andThen_plain, plain_bind]
    | _ => rfl

theorem ofGroup_plain (head : Header) (length : Option Length) (v : Value) :
    ofGroup head length (fun fields => Except.plain (body fields)) v =
      Except.plain (Item.ofGroup head length body v) := by
  cases length with
  | none => cases v <;> rfl
  | some length =>
    cases v with
    | list items =>
      simp only [ofGroup, Item.ofGroup, ofElements_plain, ← plain_bind]
      rfl
    | _ => rfl

end Item.Checked

namespace Block

open Item (Laid)

/-- Lays out an entry that opens no structure, and what is behind it. -/
def layLeaf (b : Block) (index : Nat) (d : Descriptor) (behind : List Field → Except Stopped Laid)
    (nodes : List Field) : Except Stopped Laid :=
  if d.kind.isDirective ∨ d.kind = .closing then behind nodes
  else
    match nodes with
    | [] => .ok ([], false)
    | node :: nodes => do
      let head ← Except.looked (b.header index d)
      Except.plain (Item.checkPlace head node)
      let items := if d.kind.holdsValue then [Item.value node.value] else []
      Item.Checked.andThen (items, true) fun _ => behind nodes

/-- Lays out a structure or an array of them, and what is behind it. -/
def layNode (b : Block) (index _close : Nat) (d : Descriptor)
    (inside behind : List Field → Except Stopped Laid) (nodes : List Field) :
    Except Stopped Laid :=
  match nodes with
  | [] => .ok ([], false)
  | node :: nodes => do
    let head ← Except.looked (b.header index d)
    Except.plain (Item.checkPlace head node)
    let length ← Except.looked (b.length d.length)
    let first ← Item.Checked.ofGroup head length inside node.value
    Item.Checked.andThen first fun _ => behind nodes

/-- Lays out the nodes of the entries from one index up to another. -/
def layRange (b : Block) : (start stop : Nat) → List Field → Except Stopped Laid :=
  b.walk (fun f _ => .error (.fault f))
    (fun nodes =>
      match nodes with
      | [] => .ok ([], true)
      | extra :: _ => .error (.error (.extraField extra.path)))
    b.layLeaf b.layNode

/-- Lays out a tree. -/
def layTree (b : Block) (tree : Field) : Except Stopped Laid :=
  match tree.value with
  | .struct fields => b.layRange 0 b.descriptors.length fields
  | _ => .error (.error .rootNotStruct)

variable {b : Block} {n : Nat} {num : ListingNumbers} {seen : List Declared} {l : Layout}

/-- The items that a range of the block lays out are those of its layout. -/
theorem layRange_eq (h : b.Stands n num seen l) :
    b.layRange n (n + l.size) = fun nodes => Except.plain (Item.ofFields l nodes) := by
  refine Stands.walk_eq (f := fun l nodes => Except.plain (Item.ofFields l nodes)) ?_
    (fun {n num seen head decl rest} h => ?_)
    (fun {n num seen head length body closing rest} h => ?_) h
  · funext nodes
    cases nodes <;> rfl
  · funext nodes
    have hclosing := (Layout.itemEntry_kind num head decl).2
    rw [Item.ofFields.eq_def]
    dsimp only
    unfold layLeaf
    by_cases hdirective : decl.kind.isDirective
    · rw [if_pos hdirective, if_pos (.inl hdirective)]
    · have hnode : ¬ ((Layout.itemEntry num head decl).kind.isDirective = true ∨
          (Layout.itemEntry num head decl).kind = .closing) := not_or.mpr ⟨hdirective, hclosing⟩
      rw [if_neg hdirective, if_neg hnode]
      cases nodes with
      | nil => rfl
      | cons node nodes =>
        simp only [h.item_header, ← Item.Checked.plain_bind, ← Item.Checked.andThen_plain]
        rfl
  · funext nodes
    cases nodes with
    | nil => rfl
    | cons node nodes =>
      unfold layNode
      rw [Item.ofFields.eq_def]
      simp only [h.group_header, h.group_length, Item.Checked.ofGroup_plain,
        ← Item.Checked.plain_bind, ← Item.Checked.andThen_plain]
      rfl

/-- Laying out over the block of a layout is laying out over the layout. -/
theorem layTree_block {handlers : List CustomType} (h : l.Scoped handlers 0 []) (tree : Field) :
    (l.block handlers).layTree tree = Except.plain (Item.ofTree l tree) := by
  have hrange := layRange_eq (Layout.stands_block h)
  have hsize : (l.block handlers).descriptors.length = l.size := l.length_descriptors
  rw [Nat.zero_add, ← hsize] at hrange
  unfold layTree Item.ofTree
  cases tree.value with
  | struct fields => exact congrFun hrange fields
  | _ => rfl

end Block

end RecordLayout
