import RecordLayout.Proofs.Flat.Entries
import RecordLayout.Proofs.Flat.Narrow

/-!
# Layouts and blocks side by side

From the same tokens one builder makes a layout and the other a block. Between two tokens the tables
of the one list what the other has built; each token is refused by both, for the same cause, or taken
by both. What is looked up in the tables is always there.
-/

namespace RecordLayout

/-- An open structure as the tables know it. -/
def OpenStruct.flat (s : OpenStruct) : FlatScope where
  path := s.path
  start := s.head.index
  repeated := s.repeated
  unbounded := s.length = some .unbounded
  position := s.head.position

/-- More names leave the numbers of the earlier ones. -/
theorem Evaluator.ofExpr_append {names : List FieldInfo} (more : List FieldInfo) {e : Expr}
    (h : ∀ info ∈ e.fields, info ∈ names) : ofExpr (names ++ more) e = ofExpr names e := by
  induction e with
  | const | external | counter => rfl
  | field info =>
    rw [ofExpr, ofExpr, List.idxOf_append_of_mem (h info (List.mem_singleton_self _))]
  | unary op e ih => rw [ofExpr, ofExpr, ih h]
  | binary op l r ihl ihr =>
    rw [ofExpr, ofExpr, ihl fun info hinfo => h info (List.mem_append_left _ hinfo),
      ihr fun info hinfo => h info (List.mem_append_right _ hinfo)]

theorem AttachedExpr.numbered_append {names : List FieldInfo} (more : List FieldInfo)
    {a : AttachedExpr} (h : ∀ info ∈ a.expr.fields, info ∈ names) :
    a.numbered (names ++ more) = a.numbered names := by
  rw [numbered, numbered, Evaluator.ofExpr_append more h]

namespace LayoutBuilder

/-- The expressions of what is built name what is declared. -/
theorem exprs_know {customs : List CustomType} {opened : List OpenStruct} {body : Layout}
    (hopened : OpenedScoped customs opened)
    (hbody : body.Scoped customs (startIndex opened) (startNames opened)) :
    ∀ a ∈ exprs opened body, a.expr.Knows (startNames opened ++ body.declared) := by
  induction opened generalizing body with
  | nil => exact hbody.knows
  | cons s opened ih =>
    obtain ⟨hbefore, -, hlength, hrest⟩ := hopened
    intro a ha
    have hseen : startNames opened ++ s.before.declared ⊆
        startNames (s :: opened) ++ body.declared := by
      rw [startNames, List.append_assoc]
      exact List.subset_append_left _ _
    rcases List.mem_append.mp ha with ha | ha
    · rcases List.mem_append.mp ha with ha | ha
      · exact (ih hrest hbefore a ha).mono hseen
      · obtain ⟨e, he, rfl⟩ := List.mem_map.mp ha
        exact (hlength e (Option.mem_toList.mp he)).mono hseen
    · exact hbody.knows a ha

/-- The expressions of a well scoped script use names that it declared. -/
theorem ScopedWell.exprs_know {customs : List CustomType} {b : LayoutBuilder}
    (h : ScopedWell customs b) :
    ∀ a ∈ exprs b.opened b.body, ∀ info ∈ a.expr.fields,
      info ∈ b.declared.map Declared.info := by
  intro a ha info hinfo
  have hknows := LayoutBuilder.exprs_know h.opened h.body a ha info hinfo
  rw [h.declared]
  exact List.mem_map_of_mem (f := Declared.info) hknows

end LayoutBuilder

open LayoutBuilder (entries exprs customUses)

/-- The tables of names list what is declared. -/
structure FlatBuilder.Lists (f : FlatBuilder) (declared : List Declared) : Prop where
  names : f.names = declared.map Declared.info
  numeric : f.numeric = declared.map Declared.numeric
  paths : f.paths = declared.map (·.info.path)

/-- The tables list what is built. -/
structure Flattens (b : LayoutBuilder) (f : FlatBuilder) : Prop extends f.Lists b.declared where
  descriptors : f.descriptors = entries b.opened b.body
  evaluators : f.evaluators = (exprs b.opened b.body).map (·.numbered f.names)
  customs : f.customs = (customUses b.opened b.body).map CustomUse.declared
  scopes : f.scopes = b.opened.map OpenStruct.flat
  ended : f.ended = b.ended

namespace Flattens

variable {options : CompileOptions} {paths : List String} {b : LayoutBuilder} {f : FlatBuilder}
  {position : Position}

theorem empty : Flattens .empty .empty := ⟨⟨rfl, rfl, rfl⟩, rfl, rfl, rfl, rfl, rfl⟩

section

variable (h : Flattens b f)
include h

theorem path : f.path = b.path := by
  rw [FlatBuilder.path, h.scopes, List.head?_map, Option.map_map]
  rfl

theorem repeated : f.repeated = b.repeated := by
  rw [FlatBuilder.repeated, h.scopes, List.head?_map, Option.map_map]
  rfl

theorem index (hb : b.Sound options) : f.descriptors.length = b.next := by
  rw [h.descriptors, LayoutBuilder.length_entries hb.inScope.opened, hb.inScope.next]

/-- The numbers of the layout are the lengths of the tables. -/
theorem numbers (hb : b.Sound options) :
    LayoutBuilder.numbers b.opened b.body =
      ⟨f.evaluators.length, f.names.length, f.customs.length⟩ := by
  rw [LayoutBuilder.numbers, LayoutBuilder.infos_eq, ← hb.inScope.declared, h.evaluators, h.names,
    h.customs]
  simp only [List.length_map]

/-- Names are looked up in the tables as in the scope. -/
theorem reads (hb : b.Sound options) : f.Reads options paths (b.scope options paths) where
  tables := by
    rw [FlatBuilder.tables, h.scopes, h.names, h.numeric, List.map_map]
    rfl
  tidy :=
    { nodup := by
        have hdistinct : ((b.declared.map Declared.info).map FieldInfo.path).Nodup := by
          rw [List.map_map]
          exact hb.inScope.distinct
        exact hdistinct.of_map _
      narrow := hb.narrow.declared }

/-- Behind an unbounded array both builders refuse whatever follows. -/
theorem checkEnded_agrees :
    Agrees position (fun _ _ => b.ended = none) b.checkEnded (f.checkEnded position) := by
  unfold LayoutBuilder.checkEnded FlatBuilder.checkEnded
  rw [h.ended]
  cases hended : b.ended with
  | none => exact Agrees.pure rfl
  | some array => exact Agrees.refuse _

end

end Flattens

/-! ## Names -/

namespace FlatBuilder

/-- The builder with one more name, if there is one. -/
def declaring (f : FlatBuilder) (numeric : Bool) (info : Option FieldInfo) : FlatBuilder :=
  { f with
    names := f.names ++ info.toList
    numeric := f.numeric ++ info.toList.map fun _ => numeric
    paths := f.paths ++ info.toList.map FieldInfo.path }

theorem declaring_none (f : FlatBuilder) (numeric : Bool) : f.declaring numeric none = f := by
  simp only [declaring, Option.toList_none, List.map_nil, List.append_nil]

/-- A declaration with a name enlarges the table of names as it does the scope. -/
theorem Lists.declaring {f : FlatBuilder} {declared : List Declared} (h : f.Lists declared)
    (numeric : Bool) (info : Option FieldInfo) :
    (f.declaring numeric info).Lists (declared ++ info.toList.map (⟨·, numeric⟩)) where
  names := by
    simp only [FlatBuilder.declaring, h.names, List.map_append, List.map_map]
    exact congrArg _ (List.map_id _).symm
  numeric := by
    simp only [FlatBuilder.declaring, h.numeric, List.map_append, List.map_map]
    rfl
  paths := by
    simp only [FlatBuilder.declaring, h.paths, List.map_append, List.map_map]
    rfl

/-- What a declared name comes to. -/
structure Declares (b : LayoutBuilder) (f : FlatBuilder) (numeric : Bool)
    (x : Option FieldInfo × List Declared) (r : Option Nat × FlatBuilder) : Prop where
  declared : x.2 = b.declared ++ x.1.toList.map (⟨·, numeric⟩)
  number : r.1 = x.1.map fun _ => f.names.length
  after : r.2 = f.declaring numeric x.1

/-- A name is declared by both, with the same path, or refused by both. -/
theorem declare_agrees {b : LayoutBuilder} {f : FlatBuilder} {index : Nat} (position : Position)
    (hpaths : f.paths = b.declared.map (·.info.path)) (hpath : f.path = b.path)
    (hindex : index = b.next) (name : Option String) (numeric : Bool) :
    Agrees position (f.Declares b numeric) (b.declare name numeric)
      (f.declare position index name numeric) := by
  subst hindex
  unfold LayoutBuilder.declare declare
  cases name with
  | none => exact Agrees.pure ⟨(List.append_nil _).symm, rfl, (declaring_none f numeric).symm⟩
  | some name =>
    have hcontains : f.paths.contains (joinPath b.path name) =
        b.declared.any (·.info.path == joinPath b.path name) := by
      rw [hpaths, List.contains_eq_any_beq, List.any_map]
      congr 1
      funext d
      exact BEq.comm
    dsimp only
    rw [hpath, hcontains]
    split
    · exact Agrees.refuse _
    · rw [lastNumber_append, ok_bind]
      exact Agrees.pure ⟨rfl, rfl, rfl⟩

/-- The declared name is found under its number. -/
theorem info_declaring (f : FlatBuilder) (numeric : Bool) (info : Option FieldInfo) :
    (info.map fun _ => f.names.length).mapM (entryAt (f.declaring numeric info).names) =
      .ok info := by
  cases info with
  | none => rfl
  | some info =>
    have hentry : (f.names ++ [info])[f.names.length]? = some info := by
      rw [List.getElem?_append_right (le_refl _), Nat.sub_self]
      rfl
    have hfound : entryAt (f.declaring numeric (some info)).names f.names.length = .ok info :=
      entryAt_eq_ok hentry
    rw [Option.map_some, Option.mapM_some, hfound]
    rfl

end FlatBuilder

/-! ## Steps -/

namespace Flattens

variable {options : CompileOptions} {paths : List String} {b : LayoutBuilder} {f : FlatBuilder}
  {position : Position}

/-- The evaluators made so far, and those of more expressions, in tables with one more name. -/
theorem evaluators_declaring (h : Flattens b f) (hb : b.Sound options) (info : Option FieldInfo)
    (index : Nat) {es : List Expr} (hes : ∀ e ∈ es, e.Knows b.declared) :
    f.evaluators ++ es.map (fun e => (⟨index, e⟩ : AttachedExpr).numbered f.names) =
      (exprs b.opened b.body ++ es.map (AttachedExpr.mk index)).map
        (·.numbered (f.names ++ info.toList)) := by
  rw [h.evaluators, List.map_append, List.map_map]
  congr 1
  · apply List.map_congr_left
    intro a ha
    rw [h.names, AttachedExpr.numbered_append _ (hb.inScope.exprs_know a ha)]
  · apply List.map_congr_left
    intro e he
    have hknown : ∀ i ∈ e.fields, i ∈ b.declared.map Declared.info := fun i hi =>
      List.mem_map_of_mem (f := Declared.info) (hes e he i hi)
    rw [h.names]
    exact (AttachedExpr.numbered_append (a := ⟨index, e⟩) _ hknown).symm

/-- Both builders refuse a field, or both take it. -/
theorem field_agrees (h : Flattens b f) (hb : b.Sound options) (decl : Script.FieldDecl) :
    Agrees position Flattens (b.field options paths position decl)
      (f.field options paths position decl) := by
  apply h.checkEnded_agrees.bind
  intro _ _ _ hended
  dsimp only
  apply (FlatBuilder.fieldParts_agrees (h.reads hb) h.repeated decl).bind
  rintro ⟨item, numeric⟩ ⟨parts, f₁⟩ hitem ⟨hkind, htype, hcustom, hamount, hlength, hnumeric, rfl⟩
  dsimp only at *
  subst hnumeric
  have hdeclare := FlatBuilder.declare_agrees position
    (f := ((f.withUse item.customUse).attached f.descriptors.length item.exprs).endedBy position
      item.length)
    h.paths h.path (h.index hb) decl.name (parts.kind.isNumeric && parts.length.isNone)
  apply hdeclare.bind
  rintro ⟨info, declared⟩ ⟨named, f₂⟩ _ ⟨hdeclared, hnumber, hafter⟩
  dsimp only at *
  subst hdeclared hnumber hafter
  rw [FlatBuilder.info_declaring, ok_bind]
  apply Agrees.pure
  have hexprs : ∀ e ∈ item.exprs, e.Knows b.declared :=
    fun e he => ((LayoutBuilder.fieldDecl_scoped hitem).2.1 e he).knows
  have hnumbers := h.numbers hb
  have hlists := h.toLists.declaring (parts.kind.isNumeric && parts.length.isNone) info
  -- The tables grow alike, one by one.
  constructor
  · exact ⟨hlists.names, hlists.numeric, hlists.paths⟩
  · dsimp only
    rw [LayoutBuilder.entries_item, hnumbers]
    simp only [FlatBuilder.declaring, FlatBuilder.endedBy, FlatBuilder.attached,
      FlatBuilder.withUse, h.descriptors, Layout.itemEntry, ← hkind, ← htype, hcustom, hamount,
      hlength]
  · have hevaluators := h.evaluators_declaring hb info f.descriptors.length hexprs
    dsimp only
    rw [LayoutBuilder.exprs, LayoutBuilder.overOpen_append Layout.exprs_append, Layout.exprs,
      Layout.exprs, List.append_nil, ← h.index hb]
    exact hevaluators
  · dsimp only
    rw [LayoutBuilder.customUses, LayoutBuilder.overOpen_append Layout.customUses_append,
      Layout.customUses, Layout.customUses, List.append_nil, List.map_append]
    exact congrArg (· ++ _) h.customs
  · exact h.scopes
  · simp only [FlatBuilder.declaring, FlatBuilder.endedBy, FlatBuilder.attached,
      FlatBuilder.withUse, h.ended, hended]

theorem listed_eq_unbounded {number : Nat} {length : Option Length} :
    length.map (Length.listed number) = some .unbounded ↔ length = some .unbounded := by
  rcases length with _ | _ | _ | _ <;> simp [Length.listed]

/-- The unbounded array ends the script only when it is closed. -/
theorem reopened (hended : f.ended = none) (index : Nat) (length : Option Length) :
    (if length.map (Length.listed f.evaluators.length) = some .unbounded then
      { (f.attached index (Length.exprs length)).endedBy position length with ended := none }
    else (f.attached index (Length.exprs length)).endedBy position length) =
      f.attached index (Length.exprs length) := by
  simp only [listed_eq_unbounded, FlatBuilder.endedBy]
  split
  · simp only [FlatBuilder.attached, hended]
  · rfl

/-- Both builders refuse the opening of a structure, or both take it. -/
theorem opening_agrees (h : Flattens b f) (hb : b.Sound options) (name : Option String)
    (size : Option Script.Size) :
    Agrees position Flattens (b.opening options paths position name size)
      (f.opening options paths position name size) := by
  apply h.checkEnded_agrees.bind
  intro _ _ _ hended
  dsimp only
  apply (FlatBuilder.length_agrees (h.reads hb) h.repeated size).bind
  rintro length ⟨listed, f₁⟩ hlength hshows
  obtain ⟨rfl, rfl⟩ := Prod.mk.inj hshows
  dsimp only
  rw [reopened (h.ended.trans hended)]
  have hdeclare := FlatBuilder.declare_agrees position
    (f := f.attached f.descriptors.length (Length.exprs length)) h.paths h.path (h.index hb) name
    false
  apply hdeclare.bind
  rintro ⟨info, declared⟩ ⟨named, f₂⟩ _ ⟨hdeclared, hnumber, hafter⟩
  dsimp only at *
  subst hdeclared hnumber hafter
  rw [FlatBuilder.info_declaring, ok_bind]
  apply Agrees.pure
  have hexprs : ∀ e ∈ Length.exprs length, e.Knows b.declared := fun e he =>
    (LayoutBuilder.arrayLength_spelled hlength e (Option.mem_toList.mp he)).knows
  have hnumbers := h.numbers hb
  have hlists := h.toLists.declaring false info
  -- The tables grow alike, one by one.
  constructor
  · exact ⟨hlists.names, hlists.numeric, hlists.paths⟩
  · dsimp only
    rw [LayoutBuilder.entries_opened, hnumbers]
    simp only [FlatBuilder.declaring, FlatBuilder.attached, h.descriptors]
    rfl
  · have hevaluators := h.evaluators_declaring hb info f.descriptors.length hexprs
    dsimp only
    rw [LayoutBuilder.exprs, LayoutBuilder.overOpen, Layout.exprs, List.append_nil, ← h.index hb]
    exact hevaluators
  · dsimp only
    rw [LayoutBuilder.customUses, LayoutBuilder.overOpen, Layout.customUses, List.append_nil,
      List.append_nil]
    exact h.customs
  · have hpath : ((f.attached f.descriptors.length (Length.exprs length)).declaring false
        info).path = b.path := h.path
    have hrepeated : ((f.attached f.descriptors.length (Length.exprs length)).declaring false
        info).repeated = b.repeated := h.repeated
    dsimp only
    rw [List.map_cons, ← h.scopes, OpenStruct.flat]
    simp only [hpath, hrepeated, listed_eq_unbounded, Option.isSome_map]
    rw [h.index hb]
    rfl
  · exact h.ended.trans hended

/-- Both builders refuse the closing of a structure, or both take it. -/
theorem closing_agrees (h : Flattens b f) (hb : b.Sound options) :
    Agrees position Flattens (b.closing position) (f.closing options position) := by
  unfold LayoutBuilder.closing FlatBuilder.closing
  rw [h.scopes]
  rcases b with ⟨next, declared, opened, body, ended⟩
  cases opened with
  | nil => exact Agrees.refuse _
  | cons s opened =>
    have hopened := hb.inScope.opened
    have hentry : f.descriptors[s.head.index]? =
        some (LayoutBuilder.openEntry (LayoutBuilder.numbers opened s.before) s) := by
      rw [h.descriptors]
      exact LayoutBuilder.entry_opened hopened body
    have hlt : s.head.index < f.descriptors.length := (List.getElem?_eq_some_iff.mp hentry).1
    rw [List.map_cons]
    dsimp only [OpenStruct.flat]
    rw [entryAt_eq_ok hentry, ok_bind, entryAt_eq_ok (List.getElem?_set_self hlt), ok_bind]
    apply Agrees.pure
    constructor
    · exact ⟨h.names, h.numeric, h.paths⟩
    · have horder : s.head.order = options.order := hb.order s List.mem_cons_self
      dsimp only
      rw [LayoutBuilder.entries_closed s opened hopened, h.descriptors, ← horder]
      rfl
    · dsimp only
      rw [LayoutBuilder.exprs_closed]
      exact h.evaluators
    · dsimp only
      rw [LayoutBuilder.customUses_closed]
      exact h.customs
    · rfl
    · have hended : f.ended = ended := h.ended
      simp only [hended, decide_eq_true_eq]

/-- Both builders refuse a token, or both take it. -/
theorem token_agrees (h : Flattens b f) (hb : b.Sound options) (t : Script.Token) :
    Agrees t.position Flattens (b.add options paths t.position t.declaration)
      (f.token options paths t) := by
  unfold LayoutBuilder.add FlatBuilder.token
  cases t.declaration with
  | field decl => exact h.field_agrees hb decl
  | opening name size => exact h.opening_agrees hb name size
  | closing => exact h.closing_agrees hb

end Flattens

end RecordLayout
