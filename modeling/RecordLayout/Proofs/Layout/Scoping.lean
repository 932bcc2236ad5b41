import RecordLayout.Layout.Listing
import RecordLayout.Proofs.Expr.Reading
import RecordLayout.Proofs.Layout.Shape

/-!
# Names of compiled layouts

The declarations of a compiled layout are numbered in document order, the closing brace of a
structure included. A name is declared once, with the index of its declaration, and an expression
names nothing but single integers declared before the declaration that it belongs to. A custom type
is one of those that the compiler was given.

All this is said of a layout from a place in a document on: from the index that its first declaration
takes, and from the names declared before.
-/

namespace RecordLayout

/-- The fields that an expression refers to. -/
def Expr.fields : Expr → List FieldInfo
  | .field info => [info]
  | .unary _ e => e.fields
  | .binary _ l r => l.fields ++ r.fields
  | .const _ | .external _ | .counter => []

/-- The expression refers to single integers among these names. -/
def Expr.Knows (seen : List Declared) (e : Expr) : Prop :=
  ∀ info ∈ e.fields, ⟨info, true⟩ ∈ seen

/-- The value of the declaration is a single integer. -/
def Decl.isNumeric : Decl → Bool
  | .value type length => type.kind.isNumeric && length.isNone
  | .computed _ => true
  | .align _ | .skip _ | .reset => false

/-- The custom type of the declaration, if it has one, has its place among these. -/
def Decl.Handled (customs : List CustomType) (decl : Decl) : Prop :=
  ∀ use, decl.customUse = some use → customs[use.slot]? = some use.handler

/-- The name that a declaration declares. -/
def Header.declares (head : Header) (numeric : Bool) : List Declared :=
  head.info.toList.map (⟨·, numeric⟩)

/-- The declaration has this index, and its name, which was not declared before, knows it. -/
structure Header.Placed (n : Nat) (seen : List Declared) (head : Header) : Prop where
  index : head.index = n
  info : ∀ info, head.info = some info → info.index = n
  path : ∀ info, head.info = some info → ∀ d ∈ seen, d.info.path ≠ info.path

namespace Layout

/-- The names declared in a layout, in document order. -/
def declared : Layout → List Declared
  | done => []
  | item head decl rest => head.declares decl.isNumeric ++ rest.declared
  | group head _ body _ rest => head.declares false ++ body.declared ++ rest.declared

/-- What holds of a layout whose first declaration has index `n` and follows these names. -/
def Scoped (customs : List CustomType) : (n : Nat) → (seen : List Declared) → Layout → Prop
  | _, _, done => True
  | n, seen, item head decl rest =>
    head.Placed n seen ∧ (∀ e ∈ decl.exprs, e.Knows seen) ∧ decl.Handled customs ∧
      rest.Scoped customs (n + 1) (seen ++ head.declares decl.isNumeric)
  | n, seen, group head length body _ rest =>
    head.Placed n seen ∧ (∀ e ∈ length.bind Length.expr?, e.Knows seen) ∧
      body.Scoped customs (n + 1) (seen ++ head.declares false) ∧
      rest.Scoped customs (n + 2 + body.size) (seen ++ head.declares false ++ body.declared)

theorem declared_append (k l : Layout) : (k ++ l).declared = k.declared ++ l.declared := by
  induction k with
  | done => rfl
  | item head decl rest ih => simp [declared, ih]
  | group head length body closing rest _ ih => simp [declared, ih]

/-- What is well scoped stays so behind a layout that declares what it uses. -/
theorem scoped_append {customs : List CustomType} {k l : Layout} {n : Nat} {seen : List Declared}
    (hk : k.Scoped customs n seen) (hl : l.Scoped customs (n + k.size) (seen ++ k.declared)) :
    (k ++ l).Scoped customs n seen := by
  induction k generalizing n seen with
  | done => simpa [size, declared] using hl
  | item head decl rest ih =>
    obtain ⟨hhead, hexprs, hhandled, hrest⟩ := hk
    refine ⟨hhead, hexprs, hhandled, ih hrest ?_⟩
    rwa [List.append_assoc, Nat.add_assoc]
  | group head length body closing rest _ ih =>
    obtain ⟨hhead, hexprs, hbody, hrest⟩ := hk
    refine ⟨hhead, hexprs, hbody, ih hrest ?_⟩
    rw [size, declared] at hl
    rwa [List.append_assoc, List.append_assoc, Nat.add_assoc,
      ← List.append_assoc (head.declares false), Nat.add_assoc, ← Nat.add_assoc 2]

end Layout

/-! ## Expressions -/

/-- What is put together from expressions that know their fields knows them, too. -/
theorem Expr.kept_knows (seen : List Declared) : Kept (Knows seen) :=
  Kept.collected (f := fields) (fun _ => rfl) rfl (fun _ _ => rfl) (fun _ _ _ => rfl)
    (fun info => Declared.mk info true ∈ seen)

namespace Scope

theorem atPath?_mem {s : Scope} {path : String} {d : Declared} (h : s.atPath? path = some d) :
    d ∈ s.declared := List.mem_of_find?_eq_some h

theorem enclosed?_mem {s : Scope} {name : String} {d : Declared}
    (h : s.enclosed? name = some d) : d ∈ s.declared := by
  obtain ⟨outer, -, houter⟩ := List.exists_of_findSome?_eq_some h
  split at houter
  · cases houter
  · exact atPath?_mem houter

/-- A name is looked up among the declared ones. -/
theorem lookup_mem {s : Scope} {name : String} {d : Declared} (h : s.lookup name = .ok (some d)) :
    d ∈ s.declared := by
  unfold lookup at h
  split at h
  · rename_i found heq
    cases h
    cases henclosed : s.enclosed? name with
    | some d' =>
      rw [henclosed] at heq
      cases heq
      exact enclosed?_mem henclosed
    | none =>
      rw [henclosed] at heq
      exact atPath?_mem heq
  · split at h
    · cases h
    · rename_i hnearest
      cases h
      have hmem : d ∈ s.nearest name := by
        rw [hnearest]
        exact List.mem_singleton_self d
      exact List.mem_of_mem_filter (List.mem_of_mem_filter hmem)
    · cases h

/-- A name from the outside is found only if the options allow it. -/
theorem external_eq_ok {s : Scope} {name : String} {e : Expr} (h : s.external name = .ok e) :
    s.externals.allows name = true ∧ e = .external name := by
  unfold external at h
  split at h
  · rename_i hallows
    cases h
    exact ⟨hallows, rfl⟩
  · cases h

theorem external_knows {s : Scope} {name : String} {e : Expr} (h : s.external name = .ok e) :
    e.Knows s.declared := by
  obtain ⟨-, rfl⟩ := external_eq_ok h
  exact fun _ h => absurd h List.not_mem_nil

/-- A name stands for a single integer that is declared, or for an external. -/
theorem resolve_cases {s : Scope} {name : String} {e : Expr} (h : s.resolve name = .ok e) :
    (∃ info, ⟨info, true⟩ ∈ s.declared ∧ e = .field info) ∨ s.external name = .ok e := by
  obtain ⟨found, hfound, h⟩ := except_bind_eq_ok.mp h
  cases found with
  | none =>
    dsimp only at h
    split at h
    · cases h
    · exact .inr h
  | some d =>
    dsimp only at h
    split at h
    · rename_i hnumeric
      cases h
      refine .inl ⟨d.info, ?_, rfl⟩
      rw [← hnumeric]
      exact lookup_mem hfound
    · cases h

/-- What a name means is known where it is looked up. -/
theorem resolve_knows {s : Scope} {name : String} {e : Expr} (h : s.resolve name = .ok e) :
    e.Knows s.declared := by
  rcases resolve_cases h with ⟨info, hmem, rfl⟩ | h
  · intro info' hinfo'
    rw [List.mem_singleton.mp hinfo']
    exact hmem
  · exact external_knows h

/-- The expression is what some text spells. -/
def Spells (s : Scope) (e : Expr) : Prop := ∃ text, Expr.ofText s.names text = .ok e

theorem Spells.knows {s : Scope} {e : Expr} (h : s.Spells e) : e.Knows s.declared := by
  obtain ⟨text, h⟩ := h
  exact Expr.ofText_closed (Expr.kept_knows s.declared) (fun _ _ _ => resolve_knows)
    (fun _ _ _ => external_knows) h

end Scope

/-! ## The parts of a declaration -/

/-- The expression of a parameter, if it has one, is spelled in the scope. -/
def Amount.Spelled (s : Scope) (a : Amount) : Prop := ∀ e ∈ a.expr?, s.Spells e

namespace LayoutBuilder

variable {scope : Scope} {options : CompileOptions}

theorem constant_spelled {kind : Kind} {n : Int64} {a : Amount}
    (h : constant kind n = .ok a) : a.Spelled scope := by
  unfold constant at h
  split at h
  · cases h
  · split at h
    · cases h
    · split at h
      · cases h
      · split at h
        · cases h
          exact fun _ h => absurd h (by simp [Amount.expr?])
        · cases h

/-- A parameter that was accepted is spelled with names of the scope. -/
theorem amount_spelled {kind : Kind} {extra : Script.Extra} {a : Amount}
    (h : amount scope kind extra = .ok a) : a.Spelled scope := by
  cases extra with
  | number n => exact constant_spelled h
  | expression text =>
    obtain ⟨e, he, h⟩ := except_bind_eq_ok.mp h
    split at h
    · exact constant_spelled h
    · cases h
      intro e' he'
      cases he'
      exact ⟨_, he⟩

theorem computedAmount_spelled {extra : Option Script.Extra} {a : Amount}
    (h : computedAmount scope extra = .ok a) : a.Spelled scope := by
  unfold computedAmount at h
  split at h
  · cases h
  · cases h
    exact fun _ h => absurd h (by simp [Amount.expr?])
  · rename_i text
    cases he : Expr.ofText scope.names text with
    | error e =>
      rw [he] at h
      cases h
    | ok e =>
      rw [he] at h
      cases h
      intro e' he'
      cases he'
      exact ⟨_, he⟩

theorem amountOrOne_spelled {kind : Kind} {extra : Option Script.Extra} {a : Amount}
    (h : amountOrOne scope kind extra = .ok a) : a.Spelled scope := by
  cases extra with
  | none =>
    cases h
    exact fun _ h => absurd h (by simp [Amount.expr?])
  | some extra => exact amount_spelled h

/-- The length of an array is spelled with names of the scope. -/
theorem arrayLength_spelled {repeated : Bool} {size : Option Script.Size} {length : Option Length}
    (h : arrayLength scope repeated size = .ok length) :
    ∀ e ∈ length.bind Length.expr?, scope.Spells e := by
  unfold arrayLength at h
  split at h
  · cases h
    exact fun _ h => absurd h (by simp)
  · split at h
    · cases h
    · cases h
      exact fun _ h => absurd h (by simp [Length.expr?])
  · obtain ⟨e, he, h⟩ := except_bind_eq_ok.mp h
    split at h
    · split at h
      · cases h
        exact fun _ h => absurd h (by simp [Length.expr?])
      · cases h
    · cases h
      intro e' he'
      cases he'
      exact ⟨_, he⟩

/-- The custom type of a field has the handler under the number that is kept. -/
theorem customUse_handled {decl : Script.FieldDecl} {use : CustomUse}
    (h : customUse options decl = .ok use) : options.customs[use.slot]? = some use.handler := by
  unfold customUse at h
  split at h
  · cases h
  · split at h
    · cases h
    · rename_i hhandler
      split at h
      · cases h
        exact hhandler
      · cases h

/-- The parameter of a type, if it has one, is spelled in the scope, and a custom type has its place. -/
theorem elementType_scoped {decl : Script.FieldDecl} {builtIn : Option BuiltIn}
    {type : ElementType} (h : elementType scope options decl builtIn = .ok type)
    (length : Option Length) :
    (∀ a ∈ (Decl.value type length).amount, a.Spelled scope) ∧
      (Decl.value type length).Handled options.customs := by
  unfold elementType at h
  -- The cases are a fixed type, a bit field, a text and a custom type.
  split at h
  · obtain ⟨-, -, h⟩ := except_bind_eq_ok.mp h
    cases h
    exact ⟨fun _ h => (by cases h), fun _ h => (by cases h)⟩
  · cases ha : amountOrOne scope (.builtIn .bit) decl.extra with
    | error e =>
      rw [ha] at h
      cases h
    | ok a =>
      rw [ha] at h
      cases h
      refine ⟨fun a' ha' => ?_, fun _ h => (by cases h)⟩
      cases ha'
      exact amountOrOne_spelled ha
  · obtain ⟨-, -, h⟩ := except_bind_eq_ok.mp h
    cases h
    exact ⟨fun _ h => (by cases h), fun _ h => (by cases h)⟩
  · obtain ⟨use, huse, h⟩ := except_bind_eq_ok.mp h
    have hhandled := customUse_handled huse
    cases hextra : decl.extra with
    | none =>
      rw [hextra] at h
      cases h
      refine ⟨fun _ h => (by cases h), fun use' huse' => ?_⟩
      cases huse'
      exact hhandled
    | some extra =>
      rw [hextra] at h
      dsimp only at h
      cases ha : amount scope .custom extra with
      | error e =>
        rw [ha] at h
        cases h
      | ok a =>
        rw [ha] at h
        cases h
        refine ⟨fun a' ha' => ?_, fun use' huse' => ?_⟩
        · cases ha'
          exact amount_spelled ha
        · cases huse'
          exact hhandled

theorem exprs_spelled {item : Decl}
    (hamount : ∀ a ∈ item.amount, a.Spelled scope)
    (hlength : ∀ e ∈ item.length.bind Length.expr?, scope.Spells e) :
    ∀ e ∈ item.exprs, scope.Spells e := by
  intro e he
  rcases List.mem_append.mp he with he | he
  · obtain ⟨a, ha, hea⟩ := Option.bind_eq_some_iff.mp (Option.mem_toList.mp he)
    exact hamount a ha e hea
  · exact hlength e (Option.mem_toList.mp he)

/-- A field declares something whose expressions are spelled in the scope. -/
theorem fieldDecl_scoped {repeated : Bool} {decl : Script.FieldDecl} {item : Decl} {numeric : Bool}
    (h : fieldDecl scope options repeated decl = .ok (item, numeric)) :
    numeric = item.isNumeric ∧ (∀ e ∈ item.exprs, scope.Spells e) ∧
      item.Handled options.customs := by
  unfold fieldDecl at h
  split at h
  · obtain ⟨-, -, h⟩ := except_bind_eq_ok.mp h
    obtain ⟨a, ha, h⟩ := except_bind_eq_ok.mp h
    cases h
    refine ⟨rfl, exprs_spelled (fun a' ha' => ?_) (fun _ h => (by cases h)),
      fun _ h => (by cases h)⟩
    cases ha'
    exact amountOrOne_spelled ha
  · obtain ⟨-, -, h⟩ := except_bind_eq_ok.mp h
    obtain ⟨a, ha, h⟩ := except_bind_eq_ok.mp h
    cases h
    refine ⟨rfl, exprs_spelled (fun a' ha' => ?_) (fun _ h => (by cases h)),
      fun _ h => (by cases h)⟩
    cases ha'
    exact amountOrOne_spelled ha
  · obtain ⟨-, -, h⟩ := except_bind_eq_ok.mp h
    obtain ⟨-, -, h⟩ := except_bind_eq_ok.mp h
    cases h
    exact ⟨rfl, fun _ h => (by cases h), fun _ h => (by cases h)⟩
  · obtain ⟨-, -, h⟩ := except_bind_eq_ok.mp h
    obtain ⟨a, ha, h⟩ := except_bind_eq_ok.mp h
    cases h
    refine ⟨rfl, exprs_spelled (fun a' ha' => ?_) (fun _ h => (by cases h)),
      fun _ h => (by cases h)⟩
    cases ha'
    exact computedAmount_spelled ha
  · obtain ⟨element, helement, h⟩ := except_bind_eq_ok.mp h
    obtain ⟨length, hlength, h⟩ := except_bind_eq_ok.mp h
    cases h
    obtain ⟨hamount, hhandled⟩ := elementType_scoped helement length
    exact ⟨rfl, exprs_spelled hamount (arrayLength_spelled hlength), hhandled⟩

/-- A declaration is numbered by its place, and its name is added to the scope. -/
theorem declare_placed {b : LayoutBuilder} {name : Option String} {numeric : Bool}
    {info : Option FieldInfo} {declared : List Declared}
    (h : b.declare name numeric = .ok (info, declared)) (order : ByteOrder) (position : Position) :
    (⟨b.next, info, order, position⟩ : Header).Placed b.next b.declared ∧
      declared = b.declared ++ (⟨b.next, info, order, position⟩ : Header).declares numeric := by
  unfold declare at h
  split at h
  · cases h
    exact ⟨⟨rfl, fun _ h => (by cases h), fun _ h => (by cases h)⟩, (List.append_nil _).symm⟩
  · dsimp only at h
    split at h
    · cases h
    · rename_i hfresh
      cases h
      refine ⟨⟨rfl, ?_, ?_⟩, rfl⟩
      · rintro _ ⟨⟩
        rfl
      · rintro _ ⟨⟩ d hd hpath
        exact hfresh (List.any_eq_true.mpr ⟨d, hd, beq_iff_eq.mpr hpath⟩)

/-! ## What the builder keeps -/

/-- The index of the first declaration inside the innermost open structure. -/
def startIndex : List OpenStruct → Nat
  | [] => 0
  | s :: _ => s.head.index + 1

/-- The names declared before the first declaration inside the innermost open structure. -/
def startNames : List OpenStruct → List Declared
  | [] => []
  | s :: rest => startNames rest ++ s.before.declared ++ s.head.declares false

/-- What holds of the open structures. -/
def OpenedScoped (customs : List CustomType) : List OpenStruct → Prop
  | [] => True
  | s :: rest =>
    s.before.Scoped customs (startIndex rest) (startNames rest) ∧
      s.head.Placed (startIndex rest + s.before.size) (startNames rest ++ s.before.declared) ∧
      (∀ e ∈ s.length.bind Length.expr?, e.Knows (startNames rest ++ s.before.declared)) ∧
      OpenedScoped customs rest

/-- What holds of the builder between two tokens. -/
structure ScopedWell (customs : List CustomType) (b : LayoutBuilder) : Prop where
  next : b.next = startIndex b.opened + b.body.size
  declared : b.declared = startNames b.opened ++ b.body.declared
  body : b.body.Scoped customs (startIndex b.opened) (startNames b.opened)
  opened : OpenedScoped customs b.opened

theorem scopedWell_empty (customs : List CustomType) : ScopedWell customs .empty :=
  ⟨rfl, rfl, trivial, trivial⟩

variable {paths : List String} {b b' : LayoutBuilder} {position : Position}

/-- A field keeps the script well scoped. -/
theorem scopedWell_field {decl : Script.FieldDecl} (hb : ScopedWell options.customs b)
    (h : b.field options paths position decl = .ok b') : ScopedWell options.customs b' := by
  obtain ⟨-, -, h⟩ := except_bind_eq_ok.mp h
  obtain ⟨⟨item, numeric⟩, hitem, h⟩ := except_bind_eq_ok.mp h
  obtain ⟨⟨info, declared⟩, hdeclare, h⟩ := except_bind_eq_ok.mp h
  cases h
  obtain ⟨hnumeric, hexprs, hhandled⟩ := fieldDecl_scoped hitem
  obtain ⟨hplaced, hdeclared⟩ :=
    declare_placed hdeclare (decl.order.getD options.order) position
  subst hnumeric
  have hseen : b.declared = startNames b.opened ++ b.body.declared := hb.declared
  rw [hseen, hb.next] at hplaced
  have hexprs : ∀ e ∈ item.exprs, e.Knows (startNames b.opened ++ b.body.declared) := by
    rw [← hseen]
    exact fun e he => (hexprs e he).knows
  refine ⟨?_, ?_, ?_, hb.opened⟩
  · simp only [Layout.size_append, Layout.size]
    rw [hb.next]
    omega
  · rw [Layout.declared_append, ← List.append_assoc, ← hseen]
    simpa only [Layout.declared, List.append_nil] using hdeclared
  · refine Layout.scoped_append hb.body ⟨?_, hexprs, hhandled, trivial⟩
    rw [hb.next]
    exact hplaced

/-- An opened structure does, and its name is declared in front of its fields. -/
theorem scopedWell_opening {name : Option String} {size : Option Script.Size}
    (hb : ScopedWell options.customs b)
    (h : b.opening options paths position name size = .ok b') : ScopedWell options.customs b' := by
  obtain ⟨-, -, h⟩ := except_bind_eq_ok.mp h
  obtain ⟨length, hlength, h⟩ := except_bind_eq_ok.mp h
  obtain ⟨⟨info, declared⟩, hdeclare, h⟩ := except_bind_eq_ok.mp h
  cases h
  have hlength : ∀ e ∈ length.bind Length.expr?, e.Knows b.declared :=
    fun e he => (arrayLength_spelled hlength e he).knows
  obtain ⟨hplaced, hdeclared⟩ := declare_placed hdeclare options.order position
  have hseen : b.declared = startNames b.opened ++ b.body.declared := hb.declared
  refine ⟨rfl, ?_, trivial, hb.body, ?_, ?_, hb.opened⟩
  · rw [Layout.declared, List.append_nil, hdeclared, hseen]
    rfl
  · rwa [← hseen, ← hb.next]
  · rwa [← hseen]

/-- A closed one gives back the scope with what was declared inside. -/
theorem scopedWell_closing (hb : ScopedWell options.customs b)
    (h : b.closing position = .ok b') : ScopedWell options.customs b' := by
  rcases b with ⟨next, declared, opened, body, ended⟩
  obtain ⟨hnext, hdeclared, hbody, hopened⟩ := hb
  cases opened with
  | nil => cases h
  | cons s opened =>
    cases h
    obtain ⟨hbefore, hhead, hlength, hrest⟩ := hopened
    have hindex := hhead.index
    dsimp only [startIndex, startNames] at hnext hdeclared hbody
    rw [hindex] at hnext hbody
    refine ⟨?_, ?_, ?_, hrest⟩
    · simp only [Layout.size_append, Layout.size]
      rw [hnext]
      omega
    · simp only [Layout.declared_append, Layout.declared, List.append_nil]
      rw [hdeclared]
      simp only [List.append_assoc]
    · exact Layout.scoped_append hbefore ⟨hhead, hlength, hbody, trivial⟩

theorem scopedWell_token {t : Script.Token} (hb : ScopedWell options.customs b)
    (h : b.token options paths t = .ok b') : ScopedWell options.customs b' := by
  have hadd := token_eq_ok.mp h
  unfold add at hadd
  split at hadd
  · exact scopedWell_field hb hadd
  · exact scopedWell_opening hb hadd
  · exact scopedWell_closing hb hadd

theorem scopedWell_tokens {tokens : List Script.Token} (hb : ScopedWell options.customs b)
    (h : tokens.foldlM (token options paths) b = .ok b') : ScopedWell options.customs b' :=
  kept_by_tokens (fun _ _ _ => scopedWell_token) hb h

end LayoutBuilder

/-- The layout of tokens is in order from its first declaration on. -/
theorem Layout.ofTokens_scoped {options : CompileOptions} {tokens : List Script.Token}
    {layout : Layout} (h : Layout.ofTokens options tokens = .ok layout) :
    layout.Scoped options.customs 0 [] := by
  obtain ⟨b, hb, hfinish⟩ := except_bind_eq_ok.mp h
  have hwell := LayoutBuilder.scopedWell_tokens (LayoutBuilder.scopedWell_empty _) hb
  obtain ⟨hopened, rfl⟩ := LayoutBuilder.finish_eq_ok hfinish
  have hbody := hwell.body
  rwa [hopened] at hbody

/-- The layout of a compiled script is in order from its first declaration on. -/
theorem compile_scoped {options : CompileOptions} {source : String} {schema : Schema}
    (h : compile options source = .ok schema) :
    schema.layout.Scoped options.customs 0 [] := by
  obtain ⟨tokens, -, h⟩ := except_bind_eq_ok.mp h
  obtain ⟨layout, hlayout, h⟩ := except_bind_eq_ok.mp h
  cases h
  exact Layout.ofTokens_scoped hlayout

end RecordLayout
