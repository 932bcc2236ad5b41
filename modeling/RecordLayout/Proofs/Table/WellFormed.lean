import RecordLayout.Proofs.Table.Lookup

/-!
# Blocks of compiled layouts are well formed

Every index of a block belongs to a declaration that stands there, or to the closing brace of a
structure that stands in front of it. The names are registered one by one: each with the number that
its declaration has, behind all names before it, and under a path of its own.
-/

namespace RecordLayout

namespace Block

/-! ## What stands at an index -/

/-- What an index between two others belongs to. -/
inductive Entry (b : Block) (lo hi i : Nat) : Prop where
  | item {num : ListingNumbers} {seen : List Declared} {head : Header} {decl : Decl} {rest : Layout}
    (stands : b.Stands i num seen (.item head decl rest)) (lower : lo ≤ i) (upper : i < hi)
  | opening {num : ListingNumbers} {seen : List Declared} {head : Header} {length : Option Length}
    {body rest : Layout} {closing : Position}
    (stands : b.Stands i num seen (.group head length body closing rest)) (lower : lo ≤ i)
    (upper : i + body.size + 1 < hi)
  | closing {start : Nat} {num : ListingNumbers} {seen : List Declared} {head : Header}
    {length : Option Length} {body rest : Layout} {closing : Position}
    (stands : b.Stands start num seen (.group head length body closing rest))
    (index : i = start + body.size + 1) (lower : lo ≤ start) (upper : i < hi)

variable {b : Block} {n : Nat} {num : ListingNumbers} {seen : List Declared} {head : Header}
  {decl : Decl} {length : Option Length} {body rest l : Layout} {closing : Position} {lo hi i : Nat}

theorem Entry.mono {lo' hi' : Nat} (h : b.Entry lo hi i) (hlo : lo' ≤ lo) (hhi : hi ≤ hi') :
    b.Entry lo' hi' i := by
  cases h with
  | item stands lower upper => exact .item stands (hlo.trans lower) (upper.trans_le hhi)
  | opening stands lower upper => exact .opening stands (hlo.trans lower) (upper.trans_le hhi)
  | closing stands index lower upper =>
    exact .closing stands index (hlo.trans lower) (upper.trans_le hhi)

/-- Every entry of a layout that stands in the block is that of an item, an opening or a closing
brace. -/
theorem Stands.exists_entry (h : b.Stands n num seen l) (hlow : n ≤ i) (hhigh : i < n + l.size) :
    b.Entry n (n + l.size) i := by
  induction l generalizing n num seen with
  | done =>
    rw [Layout.size] at hhigh
    omega
  | item head decl rest ih =>
    rw [Layout.size] at hhigh ⊢
    rcases Nat.eq_or_lt_of_le hlow with rfl | hlt
    · exact .item h hlow hhigh
    · exact (ih h.item_rest hlt (by omega)).mono (by omega) (by omega)
  | group head length body closing rest ihbody ihrest =>
    rw [Layout.size] at hhigh ⊢
    rcases Nat.eq_or_lt_of_le hlow with rfl | hlt
    · exact .opening h hlow (by omega)
    · by_cases hbody : i < n + 1 + body.size
      · exact (ihbody h.group_body hlt hbody).mono (by omega) (by omega)
      · by_cases hclose : i = n + body.size + 1
        · exact .closing h hclose (by omega) hhigh
        · exact (ihrest h.group_rest (by omega) (by omega)).mono (by omega) (by omega)

theorem Stands.pair (h : b.Stands n num seen (.group head length body closing rest)) :
    b.Pair n (n + body.size + 1) where
  lt := by omega
  exists_entries :=
    ⟨_, _, h.group_entry, h.group_close, rfl, rfl, rfl, congrArg some h.group_index, rfl⟩

/-- Where an opening brace is, there is a structure. -/
theorem Entry.exists_group (h : b.Entry lo hi i) {d : Descriptor} (hd : b.descriptors[i]? = some d)
    (hkind : d.kind = .opening) :
    ∃ num seen head length body closing rest,
      b.Stands i num seen (.group head length body closing rest) ∧ lo ≤ i ∧
        i + body.size + 1 < hi := by
  cases h with
  | item stands lower upper =>
    rw [stands.item_entry] at hd
    cases hd
    exact absurd hkind (Layout.itemEntry_kind _ _ _).1
  | opening stands lower upper => exact ⟨_, _, _, _, _, _, _, stands, lower, upper⟩
  | closing stands index lower upper =>
    rw [index, stands.group_close] at hd
    cases hd
    cases hkind

/-- A brace has one partner. -/
theorem Pair.eq_of_stands {j : Nat} (h : b.Pair n j)
    (hs : b.Stands n num seen (.group head length body closing rest)) : j = n + body.size + 1 := by
  obtain ⟨d, e, hd, -, -, -, hpair, -⟩ := h.exists_entries
  rw [hs.group_entry] at hd
  cases hd
  exact (Option.some_inj.mp hpair).symm

/-! ## Names -/

/-- The names declared in front of an index, as many as the number says, are in the tables. -/
structure Registered (b : Block) (n count : Nat) (seen : List Declared) : Prop where
  count : seen.length = count
  before : ∀ d ∈ seen, d.info.index < n
  entries : ∀ (k : Nat) (d : Declared), seen[k]? = some d →
    ∃ e, b.descriptors[d.info.index]? = some e ∧ e.named = some k ∧
      (e.kind.isNumeric && e.length.isNone) = d.numeric
  sorted : (seen.map (·.info.index)).Pairwise (· < ·)
  paths : (seen.map (·.info.path)).Nodup

theorem registered_nil (b : Block) : b.Registered 0 0 [] where
  count := rfl
  before := by simp
  entries := by simp
  sorted := .nil
  paths := .nil

namespace Registered

variable {m count : Nat}

theorem mono (h : b.Registered n count seen) (hle : n ≤ m) : b.Registered m count seen :=
  { h with before := fun d hd => (h.before d hd).trans_le hle }

/-- A declaration is registered with its name, if it has one. -/
theorem declare (h : b.Registered n count seen) {e : Descriptor} {numeric : Bool}
    (hplaced : head.Placed n seen) (hentry : b.descriptors[n]? = some e)
    (hnamed : e.named = head.info.map fun _ => count)
    (hnumeric : (e.kind.isNumeric && e.length.isNone) = numeric) :
    b.Registered (n + 1) (count + head.info.toList.length) (seen ++ head.declares numeric) := by
  unfold Header.declares
  cases hinfo : head.info with
  | none =>
    rw [Option.toList_none, List.map_nil, List.append_nil]
    exact h.mono (Nat.le_succ n)
  | some info =>
    rw [hinfo, Option.map_some] at hnamed
    have hindex := hplaced.info info hinfo
    rw [Option.toList_some, List.map_singleton]
    refine ⟨?_, ?_, ?_, ?_, ?_⟩
    · rw [List.length_append, h.count]
      rfl
    · intro d hd
      rcases List.mem_append.mp hd with hd | hd
      · exact (h.before d hd).trans (Nat.lt_succ_self n)
      · rw [List.mem_singleton.mp hd]
        exact hindex ▸ Nat.lt_succ_self n
    · intro k d hd
      -- The number is one of those before, or that of the new name.
      rcases Nat.lt_or_ge k seen.length with hk | hk
      · rw [List.getElem?_append_left hk] at hd
        exact h.entries k d hd
      · rw [List.getElem?_append_right hk, List.getElem?_singleton] at hd
        split at hd
        · cases hd
          refine ⟨e, hindex ▸ hentry, ?_, hnumeric⟩
          rw [hnamed, ← h.count]
          congr 1
          omega
        · cases hd
    · rw [List.map_append, List.pairwise_append]
      refine ⟨h.sorted, List.pairwise_singleton _ _, ?_⟩
      intro x hx y hy
      obtain ⟨d, hd, rfl⟩ := List.mem_map.mp hx
      have hlt := h.before d hd
      rw [List.mem_singleton.mp hy]
      rwa [← hindex] at hlt
    · rw [List.map_append, List.nodup_append]
      refine ⟨h.paths, List.nodup_singleton _, ?_⟩
      intro x hx y hy
      obtain ⟨d, hd, rfl⟩ := List.mem_map.mp hx
      rw [List.mem_singleton.mp hy]
      exact hplaced.path info hinfo d hd

end Registered

namespace Stands

theorem item_registered (h : b.Stands n num seen (.item head decl rest))
    (hr : b.Registered n num.names seen) :
    b.Registered (n + 1) (Layout.behindItem num head decl).names
      (seen ++ head.declares decl.isNumeric) := by
  refine hr.declare h.inScope.1 h.item_entry rfl ?_
  rcases decl with ⟨_, _ | _⟩ | _ | _ | _ | _ <;> rfl

theorem body_registered (h : b.Stands n num seen (.group head length body closing rest))
    (hr : b.Registered n num.names seen) :
    b.Registered (n + 1) (Layout.behindOpening num head length).names
      (seen ++ head.declares false) :=
  hr.declare h.inScope.1 h.group_entry rfl rfl

/-- Behind a layout its names are registered. -/
theorem registered (h : b.Stands n num seen l) (hr : b.Registered n num.names seen) :
    b.Registered (n + l.size) (Layout.behind num l).names (seen ++ l.declared) := by
  induction l generalizing n num seen with
  | done =>
    rw [Layout.declared, List.append_nil]
    exact hr
  | item head decl rest ih =>
    have hrest := ih h.item_rest (h.item_registered hr)
    rw [Layout.size, Layout.declared, ← Nat.add_assoc, ← List.append_assoc,
      ← Layout.listFrom_numbers, Layout.listFrom_item, Layout.listFrom_numbers]
    exact hrest
  | group head length body closing rest ihbody ihrest =>
    have hbody := ihbody h.group_body (h.body_registered hr)
    have hrest := ihrest h.group_rest (hbody.mono (by omega))
    rw [Layout.size, Layout.declared, ← List.append_assoc, ← List.append_assoc,
      ← Layout.listFrom_numbers, Layout.listFrom_group, Layout.listFrom_numbers,
      Layout.listFrom_numbers]
    exact hrest.mono (by omega)

/-- Behind a structure its own name is, and those of its body. -/
theorem rest_registered (h : b.Stands n num seen (.group head length body closing rest))
    (hr : b.Registered n num.names seen) :
    b.Registered (n + 2 + body.size)
      (Layout.behind (Layout.behindOpening num head length) body).names
      (seen ++ head.declares false ++ body.declared) :=
  (h.group_body.registered (h.body_registered hr)).mono (by omega)

/-- The expressions of a layout refer to single integers declared before their declarations. -/
theorem exprs_fields (h : b.Stands n num seen l) (hr : b.Registered n num.names seen) :
    ∀ a ∈ l.exprs, ∀ info ∈ a.expr.fields,
      ⟨info, true⟩ ∈ seen ++ l.declared ∧ info.index < a.declaration := by
  -- Those of one declaration know the names in front of it.
  have hhere {n : Nat} {num : ListingNumbers} {seen : List Declared} {head : Header} {es : List Expr}
      (hr : b.Registered n num.names seen) (hindex : head.index = n) (hes : ∀ e ∈ es, e.Knows seen)
      (a : AttachedExpr) (ha : a ∈ es.map (⟨head.index, ·⟩)) (info : FieldInfo)
      (hinfo : info ∈ a.expr.fields) : ⟨info, true⟩ ∈ seen ∧ info.index < a.declaration := by
    obtain ⟨e, he, rfl⟩ := List.mem_map.mp ha
    have hmem := hes e he info hinfo
    exact ⟨hmem, hindex ▸ hr.before _ hmem⟩
  induction l generalizing n num seen with
  | done => exact fun a ha => absurd ha List.not_mem_nil
  | item head decl rest ih =>
    intro a ha info hinfo
    rw [Layout.declared, ← List.append_assoc]
    rcases List.mem_append.mp ha with ha | ha
    · obtain ⟨hmem, hlt⟩ := hhere hr h.item_index h.inScope.2.1 a ha info hinfo
      exact ⟨List.mem_append_left _ (List.mem_append_left _ hmem), hlt⟩
    · exact ih h.item_rest (h.item_registered hr) a ha info hinfo
  | group head length body closing rest ihbody ihrest =>
    intro a ha info hinfo
    rw [Layout.declared, ← List.append_assoc, ← List.append_assoc]
    rcases List.mem_append.mp ha with ha | ha
    · rcases List.mem_append.mp ha with ha | ha
      · obtain ⟨hmem, hlt⟩ := hhere hr h.group_index
          (fun e he => h.inScope.2.1 e (Option.mem_toList.mp he)) a ha info hinfo
        refine ⟨?_, hlt⟩
        exact List.mem_append_left _ (List.mem_append_left _ (List.mem_append_left _ hmem))
      · obtain ⟨hmem, hlt⟩ := ihbody h.group_body (h.body_registered hr) a ha info hinfo
        exact ⟨List.mem_append_left _ hmem, hlt⟩
    · exact ihrest h.group_rest (h.rest_registered hr) a ha info hinfo

end Stands

end Block

theorem Decl.exists_customUse {decl : Decl} (h : decl.kind = .custom) :
    ∃ use, decl.customUse = some use := by
  rcases decl with ⟨_ | _ | _ | ⟨use, extra⟩, length⟩ | _ | _ | _ | _
  case value.custom => exact ⟨use, rfl⟩
  all_goals cases h

/-! ## Expressions -/

theorem Evaluator.mem_fields_ofExpr {names : List FieldInfo} {e : Expr} {k : Nat}
    (h : k ∈ (ofExpr names e).fields) : ∃ info ∈ e.fields, k = names.idxOf info := by
  induction e with
  | const | external | counter => cases h
  | field info => exact ⟨info, List.mem_singleton_self _, List.mem_singleton.mp h⟩
  | unary op e ih => exact ih h
  | binary op l r ihl ihr =>
    rcases List.mem_append.mp h with h | h
    · obtain ⟨info, hinfo, hk⟩ := ihl h
      exact ⟨info, List.mem_append_left _ hinfo, hk⟩
    · obtain ⟨info, hinfo, hk⟩ := ihr h
      exact ⟨info, List.mem_append_right _ hinfo, hk⟩

namespace Layout

theorem exprNumbers_itemEntry (num : ListingNumbers) (head : Header) (decl : Decl) :
    (itemEntry num head decl).exprNumbers = List.range' num.exprs decl.exprs.length := by
  have hexprs : decl.exprs.length =
      (Amount.exprs decl.amount).length + (Length.exprs decl.length).length := List.length_append
  rw [hexprs, ← List.range'_append_1]
  simp only [Descriptor.exprNumbers, itemEntry]
  congr 1
  · rcases decl.amount with _ | _ | _ <;> rfl
  · rcases decl.length with _ | _ | _ | _ <;> rfl

/-- An opening brace has the number of its length, if this is an expression. -/
theorem exprNumbers_openingEntry (num : ListingNumbers) (head : Header) (length : Option Length)
    (close : Nat) :
    (openingEntry num head length close).exprNumbers =
      List.range' num.exprs (Length.exprs length).length := by
  rcases length with _ | _ | _ | _ <;> rfl

/-- The entries of a layout have the numbers of its expressions in order. -/
theorem exprNumbers_listFrom (num : ListingNumbers) (l : Layout) :
    (listFrom num l).1.flatMap Descriptor.exprNumbers = List.range' num.exprs l.exprs.length := by
  induction l generalizing num with
  | done => rfl
  | item head decl rest ih =>
    rw [listFrom_item, List.flatMap_cons, exprNumbers_itemEntry, ih, exprs, List.length_append,
      List.length_map, ← List.range'_append_1]
    rfl
  | group head length body closing rest ihbody ihrest =>
    rw [listFrom_group, List.flatMap_cons, List.flatMap_append, List.flatMap_cons,
      exprNumbers_openingEntry, ihbody, ihrest, exprs, List.length_append, List.length_append,
      List.length_map, ← List.range'_append_1, ← List.range'_append_1, listFrom_numbers,
      List.append_assoc, ← Nat.add_assoc]
    rfl

end Layout

namespace Block

variable {b : Block} {i number : Nat} {es : List Expr}

/-- An expression under a number of a declaration is attached to it. -/
theorem exists_attached {index start : Nat} (h : HoldsAt b.evaluators start (b.attach index es))
    (hnumber : number ∈ List.range' start es.length) :
    ∃ a, b.evaluators[number]? = some a ∧ a.declaration = index := by
  obtain ⟨hle, hlt⟩ := List.mem_range'_1.mp hnumber
  obtain ⟨k, rfl⟩ := Nat.exists_eq_add_of_le hle
  have hk : k < es.length := by omega
  refine ⟨(⟨index, es[k]⟩ : AttachedExpr).numbered b.names, h.getElem? ?_, rfl⟩
  rw [attach, List.getElem?_map, List.getElem?_eq_getElem hk, Option.map_some]

theorem named_lt {info : Option FieldInfo} {more : List FieldInfo} {count k : Nat}
    (h : HoldsAt b.names count (info.toList ++ more)) (hk : (info.map fun _ => count) = some k) :
    k < b.names.length := by
  obtain ⟨info, rfl, rfl⟩ := Option.map_eq_some_iff.mp hk
  exact (List.getElem?_eq_some_iff.mp h.left.head).1

/-! ## The block of a layout -/

section

variable {l : Layout} {handlers : List CustomType} (h : l.Scoped handlers 0 []) {d : Descriptor}
include h

/-- An entry belongs to what stands at its index. -/
theorem exists_entry_block (hd : (l.block handlers).descriptors[i]? = some d) :
    (l.block handlers).Entry 0 l.size i := by
  have hlt : i < l.descriptors.length := (List.getElem?_eq_some_iff.mp hd).1
  rw [Layout.length_descriptors] at hlt
  have hentry := (Layout.stands_block h).exists_entry (Nat.zero_le i) (by rwa [Nat.zero_add])
  rwa [Nat.zero_add] at hentry

theorem exists_pair_of_opening (hd : (l.block handlers).descriptors[i]? = some d)
    (hkind : d.kind = .opening) : ∃ j, (l.block handlers).Pair i j := by
  obtain ⟨num, seen, head, length, body, closing, rest, stands, -, -⟩ :=
    (exists_entry_block h hd).exists_group hd hkind
  exact ⟨_, stands.pair⟩

theorem exists_pair_of_closing {j : Nat} (hd : (l.block handlers).descriptors[j]? = some d)
    (hkind : d.kind = .closing) : ∃ i, (l.block handlers).Pair i j := by
  cases exists_entry_block h hd with
  | item stands lower upper =>
    rw [stands.item_entry] at hd
    cases hd
    exact absurd hkind (Layout.itemEntry_kind _ _ _).2
  | opening stands lower upper =>
    rw [stands.group_entry] at hd
    cases hd
    cases hkind
  | closing stands index lower upper => exact ⟨_, index ▸ stands.pair⟩

/-- A brace inside a structure belongs to the body of the structure, and so does its partner. -/
theorem nested_block {i j i' j' : Nat} (hpair : (l.block handlers).Pair i j)
    (hpair' : (l.block handlers).Pair i' j') (hlt : i < i') (hlt' : i' < j) : j' < j := by
  obtain ⟨d, -, hd, -, hkind, -⟩ := hpair.exists_entries
  obtain ⟨d', -, hd', -, hkind', -⟩ := hpair'.exists_entries
  obtain ⟨num, seen, head, length, body, closing, rest, stands, -, -⟩ :=
    (exists_entry_block h hd).exists_group hd hkind
  have hj := hpair.eq_of_stands stands
  have hinside := stands.group_body.exists_entry hlt (by omega)
  obtain ⟨num', seen', head', length', body', closing', rest', stands', -, hupper⟩ :=
    hinside.exists_group hd' hkind'
  have hj' := hpair'.eq_of_stands stands'
  omega

/-- Each entry with a name has one of the names of the block. -/
theorem named_lt_block (hd : d ∈ (l.block handlers).descriptors) {k : Nat} (hk : d.named = some k) :
    k < (l.block handlers).names.length := by
  obtain ⟨i, hi⟩ := List.mem_iff_getElem?.mp hd
  cases exists_entry_block h hi with
  | item stands lower upper =>
    rw [stands.item_entry] at hi
    cases hi
    exact named_lt stands.names hk
  | opening stands lower upper =>
    rw [stands.group_entry] at hi
    cases hi
    exact named_lt stands.group_names hk
  | closing stands index lower upper =>
    rw [index, stands.group_close] at hi
    cases hi
    exact named_lt stands.group_names hk

/-- Each number of an expression is that of one attached to the declaration. -/
theorem exists_attached_block (hd : (l.block handlers).descriptors[i]? = some d)
    (hnumber : number ∈ d.exprNumbers) :
    ∃ a, (l.block handlers).evaluators[number]? = some a ∧ a.declaration = i := by
  cases exists_entry_block h hd with
  | item stands lower upper =>
    rw [stands.item_entry] at hd
    cases hd
    rw [Layout.exprNumbers_itemEntry] at hnumber
    rw [← stands.item_index]
    exact exists_attached stands.item_exprs hnumber
  | opening stands lower upper =>
    rw [stands.group_entry] at hd
    cases hd
    rw [Layout.exprNumbers_openingEntry] at hnumber
    rw [← stands.group_index]
    exact exists_attached stands.group_exprs hnumber
  | closing stands index lower upper =>
    rw [index, stands.group_close] at hd
    cases hd
    cases hnumber

theorem exists_custom_block (hd : d ∈ (l.block handlers).descriptors) (hkind : d.kind = .custom) :
    ∃ number use handler, d.custom = some number ∧
      (l.block handlers).customs[number]? = some use ∧ handlers[use.slot]? = some handler := by
  obtain ⟨i, hi⟩ := List.mem_iff_getElem?.mp hd
  cases exists_entry_block h hi with
  | item stands lower upper =>
    rw [stands.item_entry] at hi
    cases hi
    obtain ⟨use, huse⟩ := Decl.exists_customUse hkind
    refine ⟨_, use.declared, use.handler, ?_, stands.custom_entry huse,
      stands.inScope.2.2.1 use huse⟩
    rw [Layout.itemEntry, huse, Option.map_some]
  | opening stands lower upper =>
    rw [stands.group_entry] at hi
    cases hi
    cases hkind
  | closing stands index lower upper =>
    rw [index, stands.group_close] at hi
    cases hi
    cases hkind

/-- The names of a layout are registered in its block. -/
theorem registered_block :
    (l.block handlers).Registered (0 + l.size) (Layout.behind ⟨0, 0, 0⟩ l).names l.declared :=
  (Layout.stands_block h).registered (registered_nil _)

/-- Each field that an expression refers to is declared in front of it. -/
theorem exists_field_block {a : AttachedEvaluator} (ha : a ∈ (l.block handlers).evaluators) {k : Nat}
    (hk : k ∈ a.evaluator.fields) :
    ∃ info d, (l.block handlers).names[k]? = some info ∧ info.index < a.declaration ∧
      (l.block handlers).descriptors[info.index]? = some d ∧ d.kind.isNumeric ∧ d.length = none := by
  obtain ⟨x, hx, rfl⟩ := List.mem_map.mp ha
  obtain ⟨info, hinfo, rfl⟩ := Evaluator.mem_fields_ofExpr hk
  obtain ⟨hmem, hlt⟩ := (Layout.stands_block h).exprs_fields (registered_nil _) x hx info hinfo
  obtain ⟨k, hdeclared⟩ := List.mem_iff_getElem?.mp hmem
  obtain ⟨e, he, -, hnumeric⟩ := (registered_block h).entries k _ hdeclared
  obtain ⟨hkind, hlength⟩ := Bool.and_eq_true_iff.mp hnumeric
  refine ⟨info, e, List.getElem?_idxOf ?_, hlt, he, hkind, Option.isNone_iff_eq_none.mp hlength⟩
  rw [Layout.block, Layout.infos_eq_declared]
  exact List.mem_map_of_mem hmem

/-- The block of a layout whose declarations are in order is well formed. -/
theorem wellFormed_block : (l.block handlers).WellFormed where
  opening := fun _ _ => exists_pair_of_opening h
  closing := fun _ _ => exists_pair_of_closing h
  nested := fun _ _ _ _ => nested_block h
  sorted := by
    rw [Layout.block, Layout.infos_eq_declared, List.map_map]
    exact (registered_block h).sorted
  named := by
    intro k info hinfo
    rw [Layout.block, Layout.infos_eq_declared, List.getElem?_map] at hinfo
    obtain ⟨d, hd, rfl⟩ := Option.map_eq_some_iff.mp hinfo
    obtain ⟨e, he, hnamed, -⟩ := (registered_block h).entries k d hd
    exact ⟨e, he, hnamed⟩
  numbered := fun _ hd _ => named_lt_block h hd
  paths := by
    rw [Layout.block, Layout.infos_eq_declared, List.map_map]
    exact (registered_block h).paths
  attached := fun _ _ hd _ => exists_attached_block h hd
  used := by
    have hused := Layout.exprNumbers_listFrom ⟨0, 0, 0⟩ l
    rw [← List.range_eq_range'] at hused
    rw [Layout.block, List.length_map]
    exact hused
  fields := fun _ ha _ => exists_field_block h ha
  customs := fun _ => exists_custom_block h

end

end Block

end RecordLayout
