import RecordLayout.Proofs.Flat.Builder
import RecordLayout.Proofs.Table.Standing

/-!
# Fields of blocks

What the parts of a field come to in the tables is what the declaration shows in a listing: its
parameter and its length, with the next numbers for their expressions, and the use of a custom type.
The tables grow by just these expressions and this use.
-/

namespace RecordLayout

namespace Agrees

variable {α β γ δ : Type} {position : Position} {R : α → β → Prop} {S : γ → β → Prop}

/-- Results that agree still do when the first is replaced by one that the second shows. -/
theorem map {m : Except Script.Cause α} {w : Halting β} {g : α → γ} (hm : Agrees position R m w)
    (h : ∀ x y, R x y → S (g x) y) : Agrees position S (g <$> m) w := by
  cases m with
  | ok x =>
    cases w with
    | ok y => exact h x y hm
    | error h => exact hm.elim
  | error cause =>
    cases w with
    | ok y => exact hm.elim
    | error h => exact hm

end Agrees

namespace FlatBuilder

/-- The builder with more evaluators, for the expressions of the declaration with an index. -/
def attached (f : FlatBuilder) (index : Nat) (es : List Expr) : FlatBuilder :=
  { f with evaluators := f.evaluators ++ es.map fun e => (⟨index, e⟩ : AttachedExpr).numbered f.names }

/-- The builder behind a length: an unbounded array ends the script. -/
def endedBy (f : FlatBuilder) (position : Position) (length : Option Length) : FlatBuilder :=
  { f with ended := if length = some .unbounded then some position else f.ended }

/-- The builder with the use of a custom type. -/
def withUse (f : FlatBuilder) (use : Option CustomUse) : FlatBuilder :=
  { f with customs := f.customs ++ use.toList.map CustomUse.declared }

theorem attached_nil (f : FlatBuilder) (index : Nat) : f.attached index [] = f := by
  rw [attached, List.map_nil, List.append_nil]

theorem withUse_none (f : FlatBuilder) : f.withUse none = f := by
  rw [withUse, Option.toList_none, List.map_nil, List.append_nil]

theorem attached_attached (f : FlatBuilder) (index : Nat) (es es' : List Expr) :
    (f.attached index es).attached index es' = f.attached index (es ++ es') := by
  simp only [attached, List.map_append, List.append_assoc]

theorem attach_eq {f : FlatBuilder} {e : Expr} {v : Evaluator} (h : Evaluator.Shows f.names e v)
    (index : Nat) : f.attach index v = .ok (f.evaluators.length, f.attached index [e]) := by
  rw [attach, lastNumber_append, ok_bind, h]
  rfl

/-- The builder looks names up as the scope does. -/
structure Reads (options : CompileOptions) (paths : List String) (s : Scope) (f : FlatBuilder) :
    Prop where
  tables : f.tables options paths = s.tables
  tidy : s.Tidy

variable {options : CompileOptions} {paths : List String} {s : Scope} {f : FlatBuilder}
  {position : Position} {index : Nat}

theorem Reads.names (h : f.Reads options paths s) : f.names = s.declared.map Declared.info :=
  congrArg NameTables.names h.tables

theorem Reads.attached (h : f.Reads options paths s) (index : Nat) (es : List Expr) :
    (f.attached index es).Reads options paths s := ⟨h.tables, h.tidy⟩

theorem Reads.withUse (h : f.Reads options paths s) (use : Option CustomUse) :
    (f.withUse use).Reads options paths s := ⟨h.tables, h.tidy⟩

/-! ## Expressions -/

/-- An expression is compiled to the evaluator that shows it, or refused for the same reason. -/
theorem expression_agrees (h : f.Reads options paths s) (text : String) :
    Agrees position (Evaluator.Shows f.names) (Expr.ofText s.names text)
      (f.expression options paths position text) := by
  unfold Expr.ofText expression
  rw [Term.climbText_eq]
  cases hterm : Term.ofText text with
  | error attempts => exact Agrees.refuse _
  | ok t =>
    simp only [Except.map, ok_bind]
    rw [h.tables, h.names]
    exact Term.build_agrees (Scope.checked_answer h.tidy position) (Term.wellFormed_of_ofText hterm)

/-! ## Parameters -/

/-- How a parameter shows in the builder, which has its expression if it is computed. -/
def ShowsAmount (f : FlatBuilder) (index : Nat) (a : Option Amount)
    (r : Option ListedAmount × FlatBuilder) : Prop :=
  r = (a.map (Amount.listed f.evaluators.length), f.attached index (Amount.exprs a))

theorem showsAmount_none : f.ShowsAmount index none (none, f) := by
  rw [ShowsAmount, Amount.exprs, Option.bind_none, Option.toList_none, attached_nil]
  rfl

theorem showsAmount_const (n : UInt32) :
    f.ShowsAmount index (some (.const n)) (some (.const n), f) := by
  rw [ShowsAmount, Amount.exprs, Option.bind_some, Amount.expr?, Option.toList_none, attached_nil]
  rfl

/-- A constant is accepted as a parameter by both or refused by both. -/
theorem constantAmount_agrees {kind : Kind} (position : Position)
    (hkind : kind ≠ .builtIn .computed) (n : Int64) :
    Agrees position (fun a l => ∃ k, a = .const k ∧ l = .const k)
      (LayoutBuilder.constant kind n) (kind.constantAmount position n) := by
  unfold LayoutBuilder.constant Kind.constantAmount
  split
  · exact Agrees.refuse _
  · split
    · exact Agrees.refuse _
    · split
      · exact Agrees.refuse _
      · simp only [hkind, false_or]
        split
        · exact Agrees.pure ⟨_, rfl, rfl⟩
        · exact Agrees.refuse _

/-- A parameter of a kind other than a computed value. -/
theorem amount_agrees (h : f.Reads options paths s) {kind : Kind}
    (htakes : kind.takesAmount = true) (hkind : kind ≠ .builtIn .computed)
    (extra : Script.Extra) :
    Agrees position (fun a r => f.ShowsAmount index (some a) r)
      (LayoutBuilder.amount s kind extra)
      (f.amount options paths position index kind (some extra)) := by
  have hconstant : ∀ n, Agrees position (fun a r => f.ShowsAmount index (some a) r)
      (LayoutBuilder.constant kind n) (do
        let a ← kind.constantAmount position n
        pure (some a, f)) := by
    intro n
    have hbind := (constantAmount_agrees position hkind n).bind
      (g := pure) (v := fun a => pure (some a, f)) (S := fun a r => f.ShowsAmount index (some a) r)
      fun a l _ hal => by
        obtain ⟨k, rfl, rfl⟩ := hal
        exact Agrees.pure (showsAmount_const k)
    rwa [bind_pure] at hbind
  unfold LayoutBuilder.amount amount
  rw [htakes]
  cases extra with
  | number n => exact hconstant _
  | expression text =>
    dsimp only
    apply (expression_agrees h text).bind
    intro e v _ hv
    rw [if_neg hkind, hv, Evaluator.asConst_ofExpr, ← hv]
    cases e with
    | const n => exact hconstant n
    | field | external | counter | unary | binary =>
      dsimp only [Expr.asConst]
      rw [attach_eq hv, ok_bind]
      exact Agrees.pure rfl

/-- A parameter that defaults to one is compiled alike. -/
theorem amountOrOne_agrees (h : f.Reads options paths s) (position : Position) (type : BuiltIn)
    (htakes : (Kind.builtIn type).takesAmount = true) (hcomputed : type ≠ .computed)
    (extra : Option Script.Extra) :
    Agrees position (fun a r => f.ShowsAmount index (some a) r)
      (LayoutBuilder.amountOrOne s (.builtIn type) extra)
      (f.amount options paths position index (.builtIn type) extra) := by
  have hkind : Kind.builtIn type ≠ .builtIn .computed := by simpa using hcomputed
  cases extra with
  | none =>
    unfold LayoutBuilder.amountOrOne amount
    rw [htakes]
    dsimp only
    rw [if_neg (by simp), if_neg hkind]
    exact Agrees.pure (showsAmount_const 1)
  | some extra => exact amount_agrees h htakes hkind extra

/-- A parameter of a type that takes none is refused alike. -/
theorem noAmount_agrees (options : CompileOptions) (paths : List String) (position : Position)
    (type : BuiltIn) (htakes : (Kind.builtIn type).takesAmount = false) (extra : Option Script.Extra) :
    Agrees position (fun _ r => f.ShowsAmount index none r)
      (LayoutBuilder.noAmount (.builtIn type) extra)
      (f.amount options paths position index (.builtIn type) extra) := by
  unfold LayoutBuilder.noAmount amount
  rw [htakes]
  cases extra with
  | none => exact Agrees.pure showsAmount_none
  | some extra => exact Agrees.refuse _

/-- The parameter of a computed field is compiled alike, and refused if it is missing. -/
theorem computedAmount_agrees (h : f.Reads options paths s) (position : Position)
    (extra : Option Script.Extra) :
    Agrees position (fun a r => f.ShowsAmount index (some a) r)
      (LayoutBuilder.computedAmount s extra)
      (f.amount options paths position index (.builtIn .computed) extra) := by
  unfold LayoutBuilder.computedAmount amount
  rcases extra with _ | n | text
  · exact Agrees.refuse _
  · have hn : (Int64.ofNat n.toNat).toUInt64.toUInt32 = n := by
      apply UInt32.toNat.inj
      simp
    have hconstant : Kind.constantAmount (.builtIn .computed) position (.ofNat n.toNat) =
        .ok (.const n) := by
      simp only [Kind.constantAmount, reduceCtorEq, Kind.builtIn.injEq, false_and, if_false, true_or,
        if_true, hn]
      rfl
    dsimp only [Kind.takesAmount]
    rw [hconstant, ok_bind]
    exact Agrees.pure (showsAmount_const n)
  · dsimp only [Kind.takesAmount]
    rw [← bind_pure_comp]
    apply (expression_agrees h text).bind
    intro e v _ hv
    rw [if_pos rfl]
    dsimp only
    rw [attach_eq hv, ok_bind]
    exact Agrees.pure rfl

/-! ## Lengths -/

/-- How a length shows in the builder, which has its expression if it is computed and ends with it
if it is unbounded. -/
def ShowsLength (f : FlatBuilder) (index : Nat) (position : Position) (l : Option Length)
    (r : Option ListedLength × FlatBuilder) : Prop :=
  r = (l.map (Length.listed f.evaluators.length),
    (f.attached index (Length.exprs l)).endedBy position l)

/-- A length without an expression, unless it is unbounded, leaves the builder as it is. -/
theorem showsLength_of_bounded {l : Option Length} (hexprs : Length.exprs l = [])
    (hbounded : l ≠ some .unbounded) :
    f.ShowsLength index position l (l.map (Length.listed f.evaluators.length), f) := by
  rw [ShowsLength, hexprs, attached_nil, endedBy, if_neg hbounded]

/-- A length is compiled alike, and a further dimension of a field that is repeated is refused
alike. -/
theorem length_agrees (h : f.Reads options paths s) {repeated : Bool}
    (hrepeated : f.repeated = repeated) (size : Option Script.Size) :
    Agrees position (f.ShowsLength index position) (LayoutBuilder.arrayLength s repeated size)
      (f.length options paths position index size) := by
  subst hrepeated
  unfold LayoutBuilder.arrayLength length
  rcases size with _ | _ | text
  · exact Agrees.pure (showsLength_of_bounded rfl (by simp))
  · dsimp only
    split
    · exact Agrees.refuse _
    · have hexprs : Length.exprs (some .unbounded) = [] := rfl
      apply Agrees.pure
      rw [ShowsLength, hexprs, attached_nil, endedBy, if_pos rfl]
      rfl
  · dsimp only
    apply (expression_agrees h text).bind
    intro e v _ hv
    rw [hv, Evaluator.asConst_ofExpr, ← hv]
    cases e with
    | const n =>
      dsimp only [Expr.asConst]
      split
      · exact Agrees.pure (showsLength_of_bounded rfl (by simp))
      · exact Agrees.refuse _
    | field | external | counter | unary | binary =>
      dsimp only [Expr.asConst]
      rw [attach_eq hv, ok_bind]
      apply Agrees.pure
      rw [ShowsLength, endedBy, if_neg (by simp)]
      rfl

/-! ## Whole fields -/

/-- The parts that a directive has are checked alike. -/
theorem checkParts_directive {kind : Kind} (hkind : kind.isDirective = true)
    (hcomputed : kind ≠ .builtIn .computed) (decl : Script.FieldDecl) :
    Agrees position (fun _ _ => True) (LayoutBuilder.checkDirective decl)
      (checkParts position kind decl) := by
  unfold LayoutBuilder.checkDirective checkParts
  simp only [hkind, hcomputed, true_and, false_and, if_false]
  split
  · exact Agrees.refuse _
  · split
    · exact Agrees.refuse _
    · exact trivial

theorem checkParts_computed (decl : Script.FieldDecl) :
    Agrees position (fun _ _ => True) (LayoutBuilder.checkComputed decl)
      (checkParts position (.builtIn .computed) decl) := by
  unfold LayoutBuilder.checkComputed checkParts
  simp only [Kind.isDirective, BuiltIn.isDirective, Bool.false_eq_true, true_and, false_and,
    if_false]
  split
  · exact Agrees.refuse _
  · split
    · exact Agrees.refuse _
    · exact trivial

/-- Nothing is to be checked of a field that holds a value. -/
theorem checkParts_value {kind : Kind} (hkind : kind.isDirective = false)
    (hcomputed : kind ≠ .builtIn .computed) (decl : Script.FieldDecl) :
    checkParts position kind decl = .ok () := by
  unfold checkParts
  simp only [hkind, hcomputed, Bool.false_eq_true, false_and, if_false]
  rfl

/-- How a declaration shows in its parts, and in the builder, which has its expressions and the use
of its custom type. -/
structure ShowsItem (f : FlatBuilder) (index : Nat) (position : Position) (type : String)
    (item : Decl) (numeric : Bool) (parts : FlatField) (f' : FlatBuilder) : Prop where
  kind : parts.kind = item.kind
  typeName : (if parts.kind = .custom then type else parts.kind.name) = item.typeName
  custom : parts.custom = item.customUse.map fun _ => f.customs.length
  amount : parts.amount = item.amount.map (Amount.listed f.evaluators.length)
  length : parts.length =
    item.length.map (Length.listed (f.evaluators.length + (Amount.exprs item.amount).length))
  numeric : numeric = (parts.kind.isNumeric && parts.length.isNone)
  after : f' = ((f.withUse item.customUse).attached index item.exprs).endedBy position item.length

theorem amount_value (type : ElementType) (length : Option Length) :
    (Decl.value type length).amount = (Decl.value type none).amount := by
  cases type <;> rfl

theorem customUse_value (type : ElementType) (length : Option Length) :
    (Decl.value type length).customUse = (Decl.value type none).customUse := by
  cases type <;> rfl

/-- What a type and the parameter of a field come to. -/
structure ShowsType (f : FlatBuilder) (index : Nat) (type : String) (kind : Kind)
    (use : Option CustomUse) (element : ElementType) (r : Option ListedAmount × FlatBuilder) :
    Prop where
  sameKind : kind = element.kind
  sameName : (if kind = .custom then type else kind.name) = element.name
  sameUse : use = (Decl.value element none).customUse
  amount : (f.withUse use).ShowsAmount index (Decl.value element none).amount r

/-- A field that holds a value, from its parameter on. -/
theorem value_agrees (h : f.Reads options paths s) {repeated : Bool}
    (hrepeated : f.repeated = repeated) {decl : Script.FieldDecl} (kind : Kind)
    (use : Option CustomUse) {m : Except Script.Cause ElementType}
    (hm : Agrees position (f.ShowsType index decl.type kind use) m
      ((f.withUse use).amount options paths position index kind decl.extra)) :
    Agrees position (fun x r => f.ShowsItem index position decl.type x.1 x.2 r.1 r.2)
      (do
        let element ← m
        let length ← LayoutBuilder.arrayLength s repeated decl.size
        pure (Decl.value element length, element.kind.isNumeric && length.isNone))
      (do
        let (amount, f') ← (f.withUse use).amount options paths position index kind decl.extra
        let (length, f') ← f'.length options paths position index decl.size
        pure (⟨kind, use.map fun _ => f.customs.length, amount, length⟩, f')) := by
  apply hm.bind
  rintro element ⟨amount, f₁⟩ _ htype
  obtain ⟨rfl, rfl⟩ := Prod.mk.inj htype.amount
  have hreads := (h.withUse use).attached index (Amount.exprs (Decl.value element none).amount)
  apply (length_agrees hreads hrepeated decl.size).bind
  rintro length ⟨listed, f₂⟩ _ hlength
  obtain ⟨rfl, rfl⟩ := Prod.mk.inj hlength
  apply Agrees.pure
  refine ⟨htype.sameKind, htype.sameName, ?_, ?_, ?_, ?_, ?_⟩ <;> dsimp only
  · rw [customUse_value element length, ← htype.sameUse]
  · rw [amount_value element length]
    rfl
  · rw [amount_value element length]
    simp only [attached, withUse, List.length_append, List.length_map]
    rfl
  · simp only [htype.sameKind, Option.isNone_map]
  · rw [customUse_value element length, ← htype.sameUse, attached_attached, Decl.exprs,
      amount_value element length]
    rfl

/-- How a declaration without a length shows in its parameter. -/
structure ShowsSingle (f : FlatBuilder) (index : Nat) (type : BuiltIn) (item : Decl)
    (r : Option ListedAmount × FlatBuilder) : Prop where
  sameKind : item.kind = .builtIn type
  sameName : item.typeName = type.name
  noUse : item.customUse = none
  noLength : item.length = none
  amount : f.ShowsAmount index item.amount r

/-- A field without a length, once its parts are checked. -/
theorem single_agrees {α : Type} {decl : Script.FieldDecl} (type : BuiltIn)
    {check : Except Script.Cause Unit} {m : Except Script.Cause α} {g : α → Decl}
    (hcheck : Agrees position (fun _ _ => True) check (checkParts position (.builtIn type) decl))
    (hsize : check = .ok () → decl.size = none)
    (hm : Agrees position (fun a r => f.ShowsSingle index type (g a) r) m
      (f.amount options paths position index (.builtIn type) decl.extra)) :
    Agrees position (fun x r => f.ShowsItem index position decl.type x.1 x.2 r.1 r.2)
      (do
        check
        let a ← m
        pure (g a, type.isNumeric))
      (do
        checkParts position (.builtIn type) decl
        let (amount, f') ← f.amount options paths position index (.builtIn type) decl.extra
        let (length, f') ← f'.length options paths position index decl.size
        pure (⟨.builtIn type, none, amount, length⟩, f')) := by
  apply hcheck.bind
  rintro ⟨⟩ ⟨⟩ hchecked -
  apply hm.bind
  rintro a ⟨amount, f₁⟩ _ hitem
  obtain ⟨rfl, rfl⟩ := Prod.mk.inj hitem.amount
  rw [hsize hchecked]
  apply Agrees.pure
  refine ⟨hitem.sameKind.symm, ?_, ?_, rfl, ?_, ?_, ?_⟩
  · rw [hitem.sameName, if_neg (by simp)]
    rfl
  · rw [hitem.noUse]
    rfl
  · rw [hitem.noLength]
    rfl
  · simp [Kind.isNumeric]
  · rw [hitem.noUse, hitem.noLength, withUse_none, Decl.exprs, hitem.noLength, endedBy,
      if_neg (by simp)]
    simp [Amount.exprs]

/-- An element of a built-in type shows as its name, its kind and its parameter. -/
theorem showsType_builtIn {element : ElementType} {type : BuiltIn} {name : String}
    {r : Option ListedAmount × FlatBuilder} (hkind : element.kind = .builtIn type)
    (hname : element.name = type.name) (huse : (Decl.value element none).customUse = none)
    (ha : f.ShowsAmount index (Decl.value element none).amount r) :
    f.ShowsType index name (.builtIn type) none element r := by
  refine ⟨hkind.symm, ?_, huse.symm, ?_⟩
  · rw [hname, if_neg (by simp)]
    rfl
  · rwa [withUse_none]

/-- A field with a built-in type that holds values. -/
theorem builtIn_agrees (h : f.Reads options paths s) {repeated : Bool}
    (hrepeated : f.repeated = repeated) {decl : Script.FieldDecl} (type : BuiltIn)
    (hdirective : type.isDirective = false) (hcomputed : type ≠ .computed) {α : Type}
    {m : Except Script.Cause α} {g : α → ElementType}
    (hm : Agrees position (fun a r => f.ShowsType index decl.type (.builtIn type) none (g a) r) m
      (f.amount options paths position index (.builtIn type) decl.extra)) :
    Agrees position (fun x r => f.ShowsItem index position decl.type x.1 x.2 r.1 r.2)
      (do
        let element ← g <$> m
        let length ← LayoutBuilder.arrayLength s repeated decl.size
        pure (Decl.value element length, element.kind.isNumeric && length.isNone))
      (do
        checkParts position (.builtIn type) decl
        let (amount, f') ← f.amount options paths position index (.builtIn type) decl.extra
        let (length, f') ← f'.length options paths position index decl.size
        pure (⟨.builtIn type, none, amount, length⟩, f')) := by
  have hkind : (Kind.builtIn type).isDirective = false := hdirective
  have htype : Agrees position (f.ShowsType index decl.type (.builtIn type) none) (g <$> m)
      ((f.withUse none).amount options paths position index (.builtIn type) decl.extra) := by
    rw [withUse_none]
    exact hm.map fun _ _ ha => ha
  have hvalue := value_agrees h hrepeated (.builtIn type) none htype
  rw [checkParts_value hkind (by simpa using hcomputed), ok_bind]
  rwa [withUse_none] at hvalue

/-- The type of a field with a custom type. -/
theorem customType_agrees (h : f.Reads options paths s) (decl : Script.FieldDecl) (use : CustomUse)
    (htype : use.type = decl.type) :
    Agrees position (f.ShowsType index decl.type .custom (some use))
      (match decl.extra with
        | none => pure (.custom use none)
        | some extra => (.custom use ∘ some) <$> LayoutBuilder.amount s .custom extra)
      ((f.withUse (some use)).amount options paths position index .custom decl.extra) := by
  cases decl.extra with
  | none => exact Agrees.pure ⟨rfl, htype.symm, rfl, showsAmount_none⟩
  | some extra =>
    apply (amount_agrees (h.withUse (some use)) rfl (by simp) extra).map
    intro a r ha
    exact ⟨rfl, htype.symm, rfl, ha⟩

theorem type_of_customUse {decl : Script.FieldDecl} {use : CustomUse}
    (h : LayoutBuilder.customUse options decl = .ok use) : use.type = decl.type := by
  unfold LayoutBuilder.customUse at h
  split at h
  · cases h
  · split at h
    · cases h
    · split at h
      · cases h
        rfl
      · cases h

/-- The parts of a field come to what the field declares. -/
theorem fieldParts_agrees (h : f.Reads options paths s) {repeated : Bool}
    (hrepeated : f.repeated = repeated) (decl : Script.FieldDecl) :
    Agrees position (fun x r => f.ShowsItem index position decl.type x.1 x.2 r.1 r.2)
      (LayoutBuilder.fieldDecl s options repeated decl)
      (f.fieldParts options paths position index decl) := by
  unfold LayoutBuilder.fieldDecl fieldParts fieldKind
  cases hname : BuiltIn.ofName decl.type with
  | none =>
    dsimp only [LayoutBuilder.elementType]
    cases huse : LayoutBuilder.customUse options decl with
    | error cause => exact Agrees.refuse cause
    | ok use =>
      dsimp only
      rw [lastNumber_append]
      exact value_agrees h hrepeated .custom (some use)
        (customType_agrees h decl use (type_of_customUse huse))
  | some type =>
    cases type with
    -- Directives and computed fields are checked for the parts that they must not have.
    | align =>
      apply single_agrees .align (checkParts_directive rfl (by simp) decl)
        LayoutBuilder.size_of_checkDirective
      apply (amountOrOne_agrees h position .align rfl (by simp) decl.extra).mono
      intro a r ha
      exact ⟨rfl, rfl, rfl, rfl, ha⟩
    | skip =>
      apply single_agrees .skip (checkParts_directive rfl (by simp) decl)
        LayoutBuilder.size_of_checkDirective
      apply (amountOrOne_agrees h position .skip rfl (by simp) decl.extra).mono
      intro a r ha
      exact ⟨rfl, rfl, rfl, rfl, ha⟩
    | reset =>
      apply single_agrees .reset (checkParts_directive rfl (by simp) decl)
        LayoutBuilder.size_of_checkDirective
      apply (noAmount_agrees options paths position .reset rfl decl.extra).mono
      intro _ r ha
      exact ⟨rfl, rfl, rfl, rfl, ha⟩
    | computed =>
      apply single_agrees .computed (checkParts_computed decl)
        LayoutBuilder.size_of_checkComputed
      apply (computedAmount_agrees h position decl.extra).mono
      intro a r ha
      exact ⟨rfl, rfl, rfl, rfl, ha⟩
    -- The other built-in types may be arrays.
    | fixed type =>
      apply builtIn_agrees h hrepeated (.fixed type) rfl (by simp)
      apply (noAmount_agrees options paths position (.fixed type) rfl decl.extra).mono
      intro _ r ha
      exact showsType_builtIn rfl rfl rfl ha
    | bit =>
      apply builtIn_agrees h hrepeated .bit rfl (by simp)
      apply (amountOrOne_agrees h position .bit rfl (by simp) decl.extra).mono
      intro a r ha
      exact showsType_builtIn rfl rfl rfl ha
    | text =>
      apply builtIn_agrees h hrepeated .text rfl (by simp)
      apply (noAmount_agrees options paths position .text rfl decl.extra).mono
      intro _ r ha
      exact showsType_builtIn rfl rfl rfl ha

end FlatBuilder

end RecordLayout
