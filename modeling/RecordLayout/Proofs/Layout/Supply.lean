import RecordLayout.Proofs.Layout.Record

/-!
# Items for pieces

A write takes an item for each value of a record, in whatever form it is supplied, and one for the
number of elements of a structure array, if the items tell it. The items of a complete tree tell it
of every array, so they and the pieces correspond one to one.
-/

namespace RecordLayout

/-- The items that a write takes for pieces, and those that it leaves. What directives pass over is
written as zeros. -/
inductive Supplies : List Item → List Piece → List Item → Prop
  | nil {items : List Item} : Supplies items [] items
  | value {slot : Slot} {u v : Value} {items rest : List Item} {pieces : List Piece}
      (normal : slot.normalize u = some v) (later : Supplies items pieces rest) :
      Supplies (.value u :: items) (.value slot v :: pieces) rest
  | told {n : Nat} {items rest : List Item} {pieces : List Piece}
      (later : Supplies items pieces rest) :
      Supplies (.elements n :: items) (.elements n :: pieces) rest
  | untold {n : Nat} {items rest : List Item} {pieces : List Piece}
      (other : ∀ m more, items ≠ .elements m :: more) (later : Supplies items pieces rest) :
      Supplies items (.elements n :: pieces) rest
  | ended {least : Nat} {items rest : List Item} {pieces : List Piece}
      (later : Supplies items pieces rest) :
      Supplies items (.ended least :: pieces) rest
  | passed {bits : List Bool} {items rest : List Item} {pieces : List Piece}
      (zeros : ∀ b ∈ bits, b = false) (later : Supplies items pieces rest) :
      Supplies items (.passed bits :: pieces) rest

/-- The item is what a write takes for the piece. -/
def Item.Settles : Item → Piece → Prop
  | value u, .value slot v => slot.normalize u = some v
  | elements n, .elements m => n = m
  | _, _ => False

/-- The piece stands for an item. -/
def Piece.takesItem : Piece → Bool
  | value _ _ | elements _ => true
  | _ => false

/-- The item is a value. -/
def Item.isValue : Item → Bool
  | value _ => true
  | elements _ => false

/-- The piece is a value. -/
def Piece.isValue : Piece → Bool
  | value _ _ => true
  | _ => false

namespace Supplies

variable {items mid rest more : List Item} {first later pieces : List Piece}

/-- Items that supply two parts one behind the other supply them together. -/
theorem append (h : Supplies items first mid) (h' : Supplies mid later rest) :
    Supplies items (first ++ later) rest := by
  induction h with
  | nil => exact h'
  | value normal _ ih => exact .value normal (ih h')
  | told _ ih => exact .told (ih h')
  | untold other _ ih => exact .untold other (ih h')
  | ended _ ih => exact .ended (ih h')
  | passed zeros _ ih => exact .passed zeros (ih h')

/-- Where two parts are supplied, the items between them are those that the first leaves. -/
theorem exists_mid (h : Supplies items (first ++ later) rest) :
    ∃ mid, Supplies items first mid ∧ Supplies mid later rest := by
  induction first generalizing items with
  | nil => exact ⟨items, .nil, h⟩
  | cons e first ih =>
    cases h with
    | value normal h =>
      obtain ⟨mid, hfirst, hlater⟩ := ih h
      exact ⟨mid, .value normal hfirst, hlater⟩
    | told h =>
      obtain ⟨mid, hfirst, hlater⟩ := ih h
      exact ⟨mid, .told hfirst, hlater⟩
    | untold other h =>
      obtain ⟨mid, hfirst, hlater⟩ := ih h
      exact ⟨mid, .untold other hfirst, hlater⟩
    | ended h =>
      obtain ⟨mid, hfirst, hlater⟩ := ih h
      exact ⟨mid, .ended hfirst, hlater⟩
    | passed zeros h =>
      obtain ⟨mid, hfirst, hlater⟩ := ih h
      exact ⟨mid, .passed zeros hfirst, hlater⟩

/-- A number that is told is taken. -/
theorem of_told {k n : Nat} (h : Supplies (.elements k :: items) (.elements n :: pieces) rest) :
    k = n ∧ Supplies items pieces rest := by
  cases h with
  | told h => exact ⟨rfl, h⟩
  | untold other => exact absurd rfl (other _ _)

/-- The values that are taken settle the values of the pieces one by one. -/
theorem values (h : Supplies items pieces rest) :
    ∃ taken, items = taken ++ rest ∧
      List.Forall₂ Item.Settles (taken.filter Item.isValue) (pieces.filter Piece.isValue) := by
  induction h with
  | nil => exact ⟨[], rfl, .nil⟩
  | @value slot u v items rest pieces normal _ ih =>
    obtain ⟨taken, rfl, hall⟩ := ih
    exact ⟨.value u :: taken, rfl, .cons normal hall⟩
  | @told n items rest pieces _ ih =>
    obtain ⟨taken, rfl, hall⟩ := ih
    exact ⟨.elements n :: taken, rfl, hall⟩
  | untold _ _ ih | ended _ ih | passed _ _ ih => exact ih

end Supplies

/-! ## The items of a complete tree -/

/-- Two parts are laid out completely if each one is. -/
theorem Item.andThen_eq_ok {first : Item.Laid} {second : Unit → Except Error Item.Laid}
    {items : List Item} :
    Item.andThen first second = .ok (items, true) ↔
      ∃ more, first.2 = true ∧ second () = .ok (more, true) ∧ items = first.1 ++ more := by
  obtain ⟨front, whole⟩ := first
  cases whole with
  | false => simp [andThen, pure, Except.pure]
  | true =>
    simp only [andThen, if_true, except_bind_eq_ok, true_and]
    constructor
    · rintro ⟨⟨more, whole⟩, hmore, h⟩
      cases h
      exact ⟨more, hmore, rfl⟩
    · rintro ⟨more, hmore, rfl⟩
      exact ⟨_, hmore, rfl⟩

/-- The items of complete elements are those of the first and those of the others. -/
theorem Item.ofElements_cons {shape : Error} {ofBody : List Field → Except Error Item.Laid}
    {v : Value} {values : List Value} {items : List Item}
    (h : Item.ofElements shape ofBody (v :: values) = .ok (items, true)) :
    ∃ nodes first more, v = .struct nodes ∧ ofBody nodes = .ok (first, true) ∧
      Item.ofElements shape ofBody values = .ok (more, true) ∧ items = first ++ more := by
  cases v with
  | struct nodes =>
    obtain ⟨⟨first, whole⟩, hfirst, h⟩ := except_bind_eq_ok.mp h
    obtain ⟨more, hwhole, hmore, rfl⟩ := Item.andThen_eq_ok.mp h
    cases (show whole = true from hwhole)
    exact ⟨nodes, first, more, rfl, hfirst, hmore, rfl⟩
  | _ => cases h

/-- The items of complete nodes are the one that a node gives for the declaration, if any, and those
of the others. -/
theorem Item.ofFields_item {head : Header} {decl : Decl} {rest : Layout} {nodes : List Field}
    {items : List Item} (h : Item.ofFields (.item head decl rest) nodes = .ok (items, true)) :
    ∃ node more, Item.ofFields rest (if decl.kind.isDirective then nodes else nodes.tail) =
      .ok (more, true) ∧ items = Item.ofNode decl node ++ more := by
  unfold Item.ofFields at h
  by_cases hdirective : decl.kind.isDirective = true
  · rw [if_pos hdirective] at h ⊢
    have hnone : Item.ofNode decl default = [] := by
      cases decl with
      | value type length => rw [Decl.isDirective_value] at hdirective; cases hdirective
      | _ => rfl
    exact ⟨default, items, h, by rw [hnone, List.nil_append]⟩
  · rw [if_neg hdirective] at h ⊢
    cases nodes with
    | nil => cases h
    | cons node nodes =>
      obtain ⟨-, -, h⟩ := except_bind_eq_ok.mp h
      obtain ⟨more, -, hmore, rfl⟩ := Item.andThen_eq_ok.mp h
      exact ⟨node, more, hmore, rfl⟩

/-- The items of complete nodes are those of the node of the structure and those of the others. -/
theorem Item.ofFields_group {head : Header} {length : Option Length} {body rest : Layout}
    {closing : Position} {nodes : List Field} {items : List Item}
    (h : Item.ofFields (.group head length body closing rest) nodes = .ok (items, true)) :
    ∃ node later first more, nodes = node :: later ∧
      Item.ofGroup head length (Item.ofFields body) node.value = .ok (first, true) ∧
      Item.ofFields rest later = .ok (more, true) ∧ items = first ++ more := by
  cases nodes with
  | nil => cases h
  | cons node later =>
    obtain ⟨-, -, h⟩ := except_bind_eq_ok.mp h
    obtain ⟨⟨first, whole⟩, hfirst, h⟩ := except_bind_eq_ok.mp h
    obtain ⟨more, hwhole, hmore, rfl⟩ := Item.andThen_eq_ok.mp h
    cases (show whole = true from hwhole)
    exact ⟨node, later, first, more, rfl, hfirst, hmore, rfl⟩

section

variable {ctx : PassContext} {p p' : Place} {pieces : List Piece} {items more rest : List Item}
  {body : Place → List Field → List Piece → Option Place → Prop}
  {ofBody : List Field → Except Error Item.Laid}

/-- Whatever complete nodes are laid out for the pieces of a part of a record, the items correspond
to the pieces. -/
def Corresponds (laid : Except Error Item.Laid) (pieces : List Piece) : Prop :=
  ∀ {items more rest}, laid = .ok (items, true) → Supplies (items ++ more) pieces rest →
    rest = more ∧ List.Forall₂ Item.Settles items (pieces.filter Piece.takesItem)

/-- Elements that are supplied from nodes of their own correspond to their pieces. -/
theorem Elements.Spells.corresponds {shape : Error} {values : List Value} {begun : Nat}
    {place : Option Place}
    (hbody : ∀ p fields pieces p', body p fields pieces (some p') →
      ∀ nodes, Corresponds (ofBody nodes) pieces)
    (h : Elements.Spells body p values pieces begun place) (hplace : place.isSome = true)
    {supplied : List Value} (hlength : supplied.length = values.length) :
    Corresponds (Item.ofElements shape ofBody supplied) pieces := by
  induction h generalizing supplied with
  | nil =>
    intro items more rest hlaid hsupplies
    rw [List.length_nil, List.length_eq_zero_iff] at hlength
    subst hlength
    cases hlaid
    cases hsupplies
    exact ⟨rfl, .nil⟩
  | next one _ ih =>
    intro items more rest hlaid hsupplies
    cases supplied with
    | nil => cases hlength
    | cons x supplied =>
      obtain ⟨nodes, front, items, rfl, hfront, hrest, rfl⟩ := Item.ofElements_cons hlaid
      rw [List.append_assoc] at hsupplies
      obtain ⟨mid, hfirst, hlater⟩ := hsupplies.exists_mid
      obtain ⟨rfl, hall⟩ := hbody _ _ _ _ one nodes hfront hfirst
      obtain ⟨rfl, hall'⟩ := ih hplace (Nat.succ.inj hlength) hrest hlater
      refine ⟨rfl, ?_⟩
      rw [List.filter_append]
      exact List.rel_append hall hall'
  | cut | dropped => cases hplace

/-- A group that is supplied from a node of its own corresponds to its pieces. -/
theorem Group.Spells.corresponds {certain : Nat} {length : Option Length} {v supplied : Value}
    (hbody : ∀ p fields pieces p', body p fields pieces (some p') →
      ∀ nodes, Corresponds (ofBody nodes) pieces)
    (h : Group.Spells ctx certain body length p v pieces (some p')) (head : Header) :
    Corresponds (Item.ofGroup head length ofBody supplied) pieces := by
  intro items more rest hlaid hsupplies
  cases h with
  | struct one =>
    cases supplied with
    | struct nodes => exact hbody _ _ _ _ one nodes hlaid hsupplies
    | _ => cases hlaid
  | counted _ all =>
    cases supplied with
    | list supplied =>
      obtain ⟨⟨front, whole⟩, hfront, hlaid⟩ := except_bind_eq_ok.mp hlaid
      cases hlaid
      obtain ⟨hlength, hsupplies⟩ := hsupplies.of_told
      obtain ⟨hrest, hall⟩ := all.corresponds hbody rfl hlength hfront hsupplies
      exact ⟨hrest, .cons hlength hall⟩
    | _ => cases hlaid
  | unbounded _ all =>
    cases supplied with
    | list supplied =>
      obtain ⟨⟨front, whole⟩, hfront, hlaid⟩ := except_bind_eq_ok.mp hlaid
      cases hlaid
      obtain ⟨hlength, hsupplies⟩ := hsupplies.of_told
      obtain ⟨mid, hsupplies, hended⟩ := hsupplies.exists_mid
      obtain ⟨hmid, hall⟩ := all.corresponds hbody rfl hlength hfront hsupplies
      cases hended with
      | ended hnil =>
        cases hnil
        refine ⟨hmid, .cons hlength ?_⟩
        rw [List.filter_append, show List.filter Piece.takesItem [Piece.ended _] = [] from rfl,
          List.append_nil]
        exact hall
    | _ => cases hlaid

/-- A directive is supplied nothing; any other declaration is supplied the items of its node. -/
theorem Decl.Spells.corresponds {head : Header} {decl : Decl} {node : Option Field}
    (h : decl.Spells ctx head p node pieces p') {items mid : List Item}
    (hsupplies : Supplies items pieces mid) :
    (decl.kind.isDirective = true ∧ mid = items ∧ pieces.filter Piece.takesItem = []) ∨
      decl.kind.isDirective = false ∧ ∀ {supplied : Field} {more : List Item},
        items = Item.ofNode decl supplied ++ more → mid = more ∧
          List.Forall₂ Item.Settles (Item.ofNode decl supplied)
            (pieces.filter Piece.takesItem) := by
  cases h with
  | @single type w v =>
    refine Or.inr ⟨Decl.isDirective_value type none, ?_⟩
    intro supplied more hitems
    rw [Item.ofNode, if_pos (Decl.holdsValue_value type none)] at hitems ⊢
    cases hsupplies with
    | value normal hnil =>
      cases hnil
      cases hitems
      exact ⟨rfl, .cons normal .nil⟩
  | @counted type length w n v =>
    refine Or.inr ⟨Decl.isDirective_value type (some length), ?_⟩
    intro supplied more hitems
    rw [Item.ofNode, if_pos (Decl.holdsValue_value type (some length))] at hitems ⊢
    cases hsupplies with
    | value normal hnil =>
      cases hnil
      cases hitems
      exact ⟨rfl, .cons normal .nil⟩
  | @unbounded type length w v =>
    refine Or.inr ⟨Decl.isDirective_value type (some length), ?_⟩
    intro supplied more hitems
    rw [Item.ofNode, if_pos (Decl.holdsValue_value type (some length))] at hitems ⊢
    cases hsupplies with
    | value normal hended =>
      -- Where an unbounded array ends no item is taken.
      cases hended with
      | ended hnil =>
        cases hnil
        cases hitems
        exact ⟨rfl, .cons normal .nil⟩
  | computed =>
    refine Or.inr ⟨rfl, ?_⟩
    intro supplied more hitems
    cases hsupplies
    exact ⟨hitems, .nil⟩
  | align | skip | reset =>
    cases hsupplies with
    | passed _ hnil =>
      cases hnil
      exact Or.inl ⟨rfl, rfl, rfl⟩

/-- The items of complete nodes of a layout correspond to the pieces that they were written for. -/
theorem Layout.Spells.corresponds {l : Layout} {fields : List Field}
    (h : l.Spells ctx p fields pieces (some p')) (nodes : List Field) :
    Corresponds (Item.ofFields l nodes) pieces := by
  induction l generalizing p p' fields pieces nodes with
  | done =>
    intro items more rest hlaid hsupplies
    obtain ⟨-, rfl, -⟩ := h
    cases nodes with
    | nil =>
      cases hlaid
      cases hsupplies
      exact ⟨rfl, .nil⟩
    | cons => cases hlaid
  | item head decl later ih =>
    intro items more rest hlaid hsupplies
    rcases h with ⟨-, -, -, ⟨⟩⟩ | ⟨node, first, p₁, found, pieces', hdecl, hlater, -, rfl⟩
    obtain ⟨mid, hfirst, hsupplies⟩ := hsupplies.exists_mid
    rw [List.filter_append]
    rcases hdecl.corresponds hfirst with ⟨hdirective, rfl, hnone⟩ | ⟨hdirective, hnode⟩
    · unfold Item.ofFields at hlaid
      rw [if_pos hdirective] at hlaid
      rw [hnone]
      exact ih hlater nodes hlaid hsupplies
    · unfold Item.ofFields at hlaid
      rw [if_neg (by rw [hdirective]; exact Bool.false_ne_true)] at hlaid
      cases nodes with
      | nil => cases hlaid
      | cons supplied nodes =>
        obtain ⟨-, -, hlaid⟩ := except_bind_eq_ok.mp hlaid
        obtain ⟨items, -, hrest, rfl⟩ := Item.andThen_eq_ok.mp hlaid
        obtain ⟨rfl, hall⟩ := hnode (List.append_assoc _ _ _)
        obtain ⟨rfl, hall'⟩ := ih hlater nodes hrest hsupplies
        exact ⟨rfl, List.rel_append hall hall'⟩
  | group head length body closing later ihbody ihlater =>
    intro items more rest hlaid hsupplies
    rcases h with ⟨-, -, -, ⟨⟩⟩ |
      ⟨v, first, ⟨-, -, -, ⟨⟩⟩ | ⟨p₁, found, pieces', hgroup, hlater, -, rfl⟩⟩
    obtain ⟨mid, hfirst, hsupplies⟩ := hsupplies.exists_mid
    obtain ⟨supplied, nodes, front, items, rfl, hfront, hrest, rfl⟩ := Item.ofFields_group hlaid
    rw [List.append_assoc] at hfirst
    obtain ⟨rfl, hall⟩ := hgroup.corresponds (fun _ _ _ _ one nodes => ihbody one nodes) head
      hfront hfirst
    obtain ⟨rfl, hall'⟩ := ihlater hlater nodes hrest hsupplies
    refine ⟨rfl, ?_⟩
    rw [List.filter_append]
    exact List.rel_append hall hall'

end

end RecordLayout
