import RecordLayout.Proofs.Table.Standing

/-!
# Looking up what stands in a block

What the numbers of an entry refer to is found, and gives back the declaration that the entry stands
for. The entries of a structure give the values that the structure holds, and the bits it certainly
takes.
-/

namespace RecordLayout

theorem lookUp_eq_ok {α : Type} {table : List α} {i : Nat} {x : α} (h : table[i]? = some x) :
    lookUp table i = .ok x := by
  rw [lookUp, h]

/-- The fields of an expression are found by their numbers. -/
theorem Evaluator.resolve_ofExpr {names : List FieldInfo} {e : Expr}
    (h : ∀ info ∈ e.fields, info ∈ names) : (ofExpr names e).resolve names = .ok e := by
  induction e with
  | const | external | counter => rfl
  | field info =>
    have hinfo := h info (List.mem_singleton_self _)
    have hfound : lookUp names (names.idxOf info) = .ok info :=
      lookUp_eq_ok (List.getElem?_idxOf hinfo)
    simp only [ofExpr, resolve, hfound]
    rfl
  | unary op e ih =>
    simp only [ofExpr, resolve, ih h]
    rfl
  | binary op l r ihl ihr =>
    have hl := ihl fun info hinfo => h info (List.mem_append_left _ hinfo)
    have hr := ihr fun info hinfo => h info (List.mem_append_right _ hinfo)
    simp only [ofExpr, resolve, hl, hr]
    rfl

theorem HoldsAt.slice {α : Type} {table xs : List α} {i : Nat} (h : HoldsAt table i xs) :
    (table.take (i + xs.length)).drop i = xs := by
  obtain ⟨rest, hrest⟩ := h
  rw [List.drop_take, ← hrest, Nat.add_sub_cancel_left, List.take_left]

namespace Block

variable {b : Block} {index number : Nat}

/-- The expression that stands under a number is found by it. -/
theorem expr_of_attached {e : Expr}
    (h : b.evaluators[number]? = some ((⟨index, e⟩ : AttachedExpr).numbered b.names))
    (hknown : ∀ info ∈ e.fields, info ∈ b.names) : b.expr number = .ok e := by
  rw [expr, lookUp_eq_ok h]
  exact Evaluator.resolve_ofExpr hknown

/-- The expressions of a declaration, as the block has them. -/
def attach (b : Block) (index : Nat) (es : List Expr) : List AttachedEvaluator :=
  es.map fun e => (⟨index, e⟩ : AttachedExpr).numbered b.names

/-- A parameter is found by the number of its expression. -/
theorem amount_listed {a : Option Amount}
    (h : HoldsAt b.evaluators number (b.attach index (Amount.exprs a)))
    (hknown : ∀ e ∈ Amount.exprs a, ∀ info ∈ e.fields, info ∈ b.names) :
    b.amount (a.map (Amount.listed number)) = .ok a := by
  rcases a with _ | n | e
  · rfl
  · rfl
  · have hexpr : b.expr number = .ok e :=
      expr_of_attached h.head (hknown e (List.mem_singleton_self e))
    simp only [Option.map_some, Amount.listed, amount, hexpr]
    rfl

theorem length_listed {l : Option Length}
    (h : HoldsAt b.evaluators number (b.attach index (Length.exprs l)))
    (hknown : ∀ e ∈ Length.exprs l, ∀ info ∈ e.fields, info ∈ b.names) :
    b.length (l.map (Length.listed number)) = .ok l := by
  rcases l with _ | n | e | _
  · rfl
  · rfl
  · have hexpr : b.expr number = .ok e :=
      expr_of_attached h.head (hknown e (List.mem_singleton_self e))
    simp only [Option.map_some, Length.listed, length, hexpr]
    rfl
  · rfl

theorem info_listed {info : Option FieldInfo} {more : List FieldInfo}
    (h : HoldsAt b.names number (info.toList ++ more)) :
    b.info (info.map fun _ => number) = .ok info := by
  cases info with
  | none => rfl
  | some info =>
    have hfound : lookUp b.names number = .ok info := lookUp_eq_ok h.left.head
    simp only [Option.map_some, Block.info, hfound]
    rfl

theorem customUse_listed {use : CustomUse} (h : b.customs[number]? = some use.declared)
    (hhandler : b.handlers[use.slot]? = some use.handler) : b.customUse number = .ok use := by
  simp only [customUse, h, CustomUse.declared, hhandler]

namespace Stands

variable {n : Nat} {num : ListingNumbers} {seen : List Declared} {head : Header} {decl : Decl}
  {length : Option Length} {body rest l : Layout} {closing : Position}

/-- What an expression knows has a name in the block. -/
theorem known (h : b.Stands n num seen l) {e : Expr} (he : e.Knows seen) :
    ∀ info ∈ e.fields, info ∈ b.names := fun info hinfo => h.seen _ (he info hinfo)

theorem item_header (h : b.Stands n num seen (.item head decl rest)) :
    b.header n (Layout.itemEntry num head decl) = .ok head := by
  have hinfo : b.info (head.info.map fun _ => num.names) = .ok head.info := info_listed h.names
  simp only [header, Layout.itemEntry, hinfo, ← h.item_index]
  rfl

/-- The expressions of a declaration stand under the numbers of its entry. -/
theorem item_exprs (h : b.Stands n num seen (.item head decl rest)) :
    HoldsAt b.evaluators num.exprs (b.attach head.index decl.exprs) := by
  have hexprs := h.exprs
  rw [Layout.exprs, List.map_append, List.map_map] at hexprs
  exact hexprs.left

theorem custom_entry (h : b.Stands n num seen (.item head decl rest)) {use : CustomUse}
    (huse : decl.customUse = some use) : b.customs[num.customs]? = some use.declared := by
  have hcustoms := h.customs
  rw [Layout.customUses, List.map_append, huse] at hcustoms
  exact hcustoms.left.head

/-- An entry that is no brace gives back its declaration. -/
theorem item_decl (h : b.Stands n num seen (.item head decl rest)) :
    b.decl (Layout.itemEntry num head decl) = .ok decl := by
  have hknown : ∀ e ∈ decl.exprs, ∀ info ∈ e.fields, info ∈ b.names :=
    fun e he => h.known (h.inScope.2.1 e he)
  have hexprs := h.item_exprs
  rw [Decl.exprs, attach, List.map_append] at hexprs
  have hamount : b.amount (decl.amount.map (Amount.listed num.exprs)) = .ok decl.amount :=
    amount_listed hexprs.left fun e he => hknown e (List.mem_append_left _ he)
  have hright := hexprs.right
  rw [List.length_map] at hright
  have hlength : b.length (decl.length.map
      (Length.listed (num.exprs + (Amount.exprs decl.amount).length))) = .ok decl.length :=
    length_listed hright fun e he => hknown e (List.mem_append_right _ he)
  have hcustom : ∀ use, decl.customUse = some use → b.customUse num.customs = .ok use :=
    fun use huse => customUse_listed (h.custom_entry huse) (h.inScope.2.2.1 use huse)
  simp only [Block.decl, Layout.itemEntry, hamount, hlength]
  cases decl with
  | value type length =>
    cases type with
    | fixed type => rfl
    | bit width => rfl
    | text => rfl
    | custom use extra =>
      have huse := hcustom use rfl
      simp only [Decl.kind, ElementType.kind, Decl.customUse, Option.map_some]
      change (b.customUse num.customs >>= fun use => _) = _
      rw [huse]
      rfl
  | computed a => rfl
  | align a => rfl
  | skip a => rfl
  | reset => rfl

section

variable (h : b.Stands n num seen (.group head length body closing rest))
include h

theorem group_names : HoldsAt b.names num.names (head.info.toList ++ (body.infos ++ rest.infos)) := by
  have hnames := h.names
  rwa [Layout.infos, List.append_assoc] at hnames

/-- The header of a structure is that of its opening brace. -/
theorem group_header (close : Nat) :
    b.header n (Layout.openingEntry num head length close) = .ok head := by
  have hinfo : b.info (head.info.map fun _ => num.names) = .ok head.info :=
    info_listed h.group_names
  simp only [header, Layout.openingEntry, hinfo, ← h.group_index]
  rfl

theorem group_exprs : HoldsAt b.evaluators num.exprs (b.attach head.index (Length.exprs length)) := by
  have hexprs := h.exprs
  rw [Layout.exprs, List.map_append, List.map_append, List.map_map] at hexprs
  exact hexprs.left.left

theorem group_length (close : Nat) :
    b.length (Layout.openingEntry num head length close).length = .ok length :=
  length_listed h.group_exprs fun e he => h.known (h.inScope.2.1 e (Option.mem_toList.mp he))

omit h in
/-- The closing brace is where the entry of the opening one says, within the range. -/
theorem group_closing {limit : Nat} (hlimit : n + body.size + 1 < limit) :
    (Layout.openingEntry num head length (n + body.size + 1)).closing n limit =
      .ok ⟨n + body.size + 1, by omega, hlimit⟩ := by
  simp only [Descriptor.closing, Layout.openingEntry]
  rw [dif_pos]

end

end Stands

end Block

/-! ## Values and bits -/

namespace Layout

/-- The entries hold a value if the layout does. -/
theorem any_holdsValue (num : ListingNumbers) (l : Layout) :
    (listFrom num l).1.any (·.kind.holdsValue) = l.holdsValue := by
  induction l generalizing num with
  | done => rfl
  | item head decl rest ih =>
    rw [listFrom_item, List.any_cons, ih]
    rfl
  | group head length body closing rest ihbody ihrest =>
    rw [listFrom_group, List.any_cons, List.any_append, List.any_cons, ihbody, ihrest]
    rfl

theorem certainCount_listed (number : Nat) (length : Option Length) (d : Descriptor)
    (h : d.length = length.map (Length.listed number)) : d.certainCount = certainCount length := by
  rw [Descriptor.certainCount, h]
  rcases length with _ | _ | _ | _ <;> rfl

theorem itemEntry_kind (num : ListingNumbers) (head : Header) (decl : Decl) :
    (itemEntry num head decl).kind ≠ .opening ∧ (itemEntry num head decl).kind ≠ .closing := by
  rcases decl with ⟨_ | _ | _ | _, _⟩ | _ | _ | _ | _ <;>
    exact ⟨Kind.noConfusion, Kind.noConfusion⟩

theorem certainBits_itemEntry (num : ListingNumbers) (head : Header) (decl : Decl) :
    (itemEntry num head decl).certainBits = decl.certainBits := by
  rcases decl with ⟨_ | ⟨_ | _⟩ | _ | _, _⟩ | _ | _ | ⟨_ | _⟩ | _ <;> rfl

end Layout

namespace Block.Stands

variable {b : Block} {n : Nat} {num : ListingNumbers} {seen : List Declared} {head : Header}
  {decl : Decl} {length : Option Length} {body rest l : Layout} {closing : Position}

theorem item_holdsValue :
    b.holdsValue n (Layout.itemEntry num head decl) = .ok decl.kind.holdsValue := by
  rcases decl with ⟨_ | _ | _ | _, _⟩ | _ | _ | _ | _ <;> rfl

/-- A structure holds a value if one of the entries between its braces does. -/
theorem group_holdsValue (h : b.Stands n num seen (.group head length body closing rest)) :
    b.holdsValue n (Layout.openingEntry num head length (n + body.size + 1)) =
      .ok body.holdsValue := by
  have hclose := (List.getElem?_eq_some_iff.mp h.group_close).1
  have hslice := h.group_body.entries.slice
  rw [Layout.length_listFrom, Nat.add_right_comm] at hslice
  simp only [holdsValue, Layout.openingEntry]
  rw [if_pos ⟨by omega, hclose.le⟩, hslice, Layout.any_holdsValue]

/-- What a walk through the entries of a layout comes to, if it comes to that entry by entry. -/
theorem walk_eq {ρ : Type} {stuck : Fault → ρ} {done : ρ} {leaf : Nat → Descriptor → ρ → ρ}
    {node : Nat → Nat → Descriptor → ρ → ρ → ρ} {f : Layout → ρ} (hdone : f .done = done)
    (hitem : ∀ {n num seen head decl rest}, b.Stands n num seen (.item head decl rest) →
      f (.item head decl rest) = leaf n (Layout.itemEntry num head decl) (f rest))
    (hgroup : ∀ {n num seen head length body closing rest},
      b.Stands n num seen (.group head length body closing rest) →
      f (.group head length body closing rest) =
        node n (n + body.size + 1) (Layout.openingEntry num head length (n + body.size + 1)) (f body)
          (f rest))
    (h : b.Stands n num seen l) : b.walk stuck done leaf node n (n + l.size) = f l := by
  induction l generalizing n num seen with
  | done => rw [walk, dif_neg (by rw [Layout.size]; omega), hdone]
  | item head decl rest ih =>
    have hrest := ih h.item_rest
    rw [Nat.add_assoc] at hrest
    have hkind := (Layout.itemEntry_kind num head decl).1
    rw [walk, dif_pos (by rw [Layout.size]; omega)]
    simp only [h.item_entry]
    rw [if_neg hkind, Layout.size, hrest, hitem h]
  | group head length body closing rest ihbody ihrest =>
    have hbody := ihbody h.group_body
    have hrest := ihrest h.group_rest
    rw [Nat.add_right_comm n 1 body.size] at hbody
    rw [show n + 2 + body.size = n + body.size + 1 + 1 by omega] at hrest
    have hstop : n + (Layout.group head length body closing rest).size =
        n + body.size + 1 + 1 + rest.size := by
      rw [Layout.size]
      omega
    rw [hstop, walk, dif_pos (by omega)]
    simp only [h.group_entry]
    rw [if_pos (by rfl), group_closing (by omega)]
    dsimp only
    rw [hbody, hrest, hgroup h]

/-- The bits that a layout certainly takes are those of its entries. -/
theorem certainBits_eq (h : b.Stands n num seen l) :
    b.certainBits n (n + l.size) = .ok l.certainBits := by
  refine walk_eq (f := fun l => (.ok l.certainBits : Except Fault Nat)) rfl
    (fun {n num seen head decl rest} _ => ?_)
    (fun {n num seen head length body closing rest} _ => ?_) h
  · have hcount := Layout.certainCount_listed _ decl.length (Layout.itemEntry num head decl) rfl
    rw [Layout.certainBits_itemEntry, hcount]
    rfl
  · have hcount := Layout.certainCount_listed _ length
      (Layout.openingEntry num head length (n + body.size + 1)) rfl
    rw [hcount]
    rfl

end Block.Stands

end RecordLayout
