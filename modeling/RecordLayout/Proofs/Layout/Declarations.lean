import RecordLayout.Proofs.Layout.Shape

/-!
# What holds of every declaration

A property that the builder sees to when it adds a declaration holds of every declaration of a
compiled layout, at any depth. The first such property: a directive has no name.
-/

namespace RecordLayout

/-- Every declaration other than a structure has the property, at any depth. -/
def Layout.EachItem (holds : Header → Decl → Prop) : Layout → Prop
  | done => True
  | item head decl rest => holds head decl ∧ rest.EachItem holds
  | group _ _ body _ rest => body.EachItem holds ∧ rest.EachItem holds

/-- What holds of each item of two layouts holds of each of the two together. -/
theorem Layout.eachItem_append {holds : Header → Decl → Prop} {k l : Layout}
    (hk : k.EachItem holds) (hl : l.EachItem holds) : (k ++ l).EachItem holds := by
  induction k with
  | done => exact hl
  | item head decl rest ih => exact ⟨hk.1, ih hk.2⟩
  | group head length body closing rest _ ih => exact ⟨hk.1, ih hk.2⟩

namespace LayoutBuilder

/-- What is built so far has the property, in the open structures too. -/
structure Keeps (holds : Header → Decl → Prop) (b : LayoutBuilder) : Prop where
  body : b.body.EachItem holds
  opened : ∀ s ∈ b.opened, s.before.EachItem holds

theorem keeps_empty (holds : Header → Decl → Prop) : Keeps holds .empty :=
  ⟨trivial, fun _ hs => absurd hs List.not_mem_nil⟩

/-- The builder adds only declarations with the property. -/
def Ensures (options : CompileOptions) (holds : Header → Decl → Prop) : Prop :=
  ∀ (b : LayoutBuilder) (scope : Scope) (decl : Script.FieldDecl) (item : Decl) (numeric : Bool)
    (declared : List Declared) (head : Header),
    fieldDecl scope options b.repeated decl = .ok (item, numeric) →
      b.declare decl.name numeric = .ok (head.info, declared) → holds head item

variable {options : CompileOptions} {holds : Header → Decl → Prop} {paths : List String}
  {b b' : LayoutBuilder}

/-- A declaration that is added ensures of itself what was ensured of those before. -/
theorem Keeps.add (hensures : Ensures options holds) (hb : b.Keeps holds) {position : Position}
    {declaration : Script.Declaration} (h : b.add options paths position declaration = .ok b') :
    b'.Keeps holds := by
  cases declaration with
  | field decl =>
    obtain ⟨⟨⟩, -, h⟩ := except_bind_eq_ok.mp h
    obtain ⟨⟨item, numeric⟩, hitem, h⟩ := except_bind_eq_ok.mp h
    obtain ⟨⟨info, declared⟩, hdeclare, h⟩ := except_bind_eq_ok.mp h
    cases h
    refine ⟨Layout.eachItem_append hb.body ⟨?_, trivial⟩, hb.opened⟩
    exact hensures b _ decl item numeric declared _ hitem hdeclare
  | opening name size =>
    obtain ⟨⟨⟩, -, h⟩ := except_bind_eq_ok.mp h
    obtain ⟨length, -, h⟩ := except_bind_eq_ok.mp h
    obtain ⟨⟨info, declared⟩, -, h⟩ := except_bind_eq_ok.mp h
    cases h
    refine ⟨trivial, fun s hs => ?_⟩
    rcases List.mem_cons.mp hs with rfl | hs
    · exact hb.body
    · exact hb.opened s hs
  | closing =>
    simp only [LayoutBuilder.add, closing] at h
    cases hopened : b.opened with
    | nil =>
      rw [hopened] at h
      cases h
    | cons s opened =>
      rw [hopened] at h
      cases h
      have hbefore := hb.opened s (by rw [hopened]; exact List.mem_cons_self)
      refine ⟨Layout.eachItem_append hbefore ⟨hb.body, trivial⟩, fun s' hs' => ?_⟩
      exact hb.opened s' (by rw [hopened]; exact List.mem_cons_of_mem s hs')

theorem Keeps.token (hensures : Ensures options holds) (hb : b.Keeps holds) {t : Script.Token}
    (h : b.token options paths t = .ok b') : b'.Keeps holds := hb.add hensures (token_eq_ok.mp h)

theorem Keeps.tokens (hensures : Ensures options holds) {tokens : List Script.Token}
    (hb : b.Keeps holds)
    (h : tokens.foldlM (LayoutBuilder.token options paths) b = .ok b') : b'.Keeps holds :=
  kept_by_tokens (fun _ _ _ hb => hb.token hensures) hb h

end LayoutBuilder

/-- What the builder ensures for every declaration holds of every declaration of the layout. -/
theorem compile_eachItem {options : CompileOptions} {holds : Header → Decl → Prop}
    (hensures : LayoutBuilder.Ensures options holds) {source : String} {schema : Schema}
    (h : compile options source = .ok schema) : schema.layout.EachItem holds := by
  obtain ⟨tokens, -, h⟩ := except_bind_eq_ok.mp h
  obtain ⟨layout, hlayout, h⟩ := except_bind_eq_ok.mp h
  cases h
  obtain ⟨b, hb, hfinish⟩ := except_bind_eq_ok.mp hlayout
  have hkeeps := (LayoutBuilder.keeps_empty holds).tokens hensures hb
  obtain ⟨-, rfl⟩ := LayoutBuilder.finish_eq_ok hfinish
  exact hkeeps.body

/-! ## Directives -/

/-- A directive has no name. -/
def Decl.Untitled (head : Header) (decl : Decl) : Prop :=
  decl.kind.isDirective = true → head.info = none

namespace LayoutBuilder

/-- A directive that was accepted has no name. -/
theorem name_of_checkDirective {decl : Script.FieldDecl} (h : checkDirective decl = .ok ()) :
    decl.name = none := by
  unfold checkDirective at h
  split at h
  · cases h
  · split at h
    · cases h
    · rename_i hname
      cases hdecl : decl.name with
      | none => rfl
      | some name =>
        rw [hdecl] at hname
        exact absurd rfl hname

/-- The builder takes no name for a directive. -/
theorem name_of_fieldDecl {scope : Scope} {options : CompileOptions} {repeated : Bool}
    {decl : Script.FieldDecl} {item : Decl} {numeric : Bool}
    (h : fieldDecl scope options repeated decl = .ok (item, numeric))
    (hdirective : item.kind.isDirective = true) : decl.name = none := by
  unfold fieldDecl at h
  split at h
  · obtain ⟨⟨⟩, hcheck, -⟩ := except_bind_eq_ok.mp h
    exact name_of_checkDirective hcheck
  · obtain ⟨⟨⟩, hcheck, -⟩ := except_bind_eq_ok.mp h
    exact name_of_checkDirective hcheck
  · obtain ⟨⟨⟩, hcheck, -⟩ := except_bind_eq_ok.mp h
    exact name_of_checkDirective hcheck
  · obtain ⟨⟨⟩, -, h⟩ := except_bind_eq_ok.mp h
    obtain ⟨e, -, h⟩ := except_bind_eq_ok.mp h
    cases h
    cases hdirective
  · obtain ⟨element, -, h⟩ := except_bind_eq_ok.mp h
    obtain ⟨length, -, h⟩ := except_bind_eq_ok.mp h
    cases h
    cases element <;> cases hdirective

theorem ensures_untitled (options : CompileOptions) : Ensures options Decl.Untitled := by
  intro b scope decl item numeric declared head hitem hdeclare hdirective
  rw [name_of_fieldDecl hitem hdirective] at hdeclare
  cases hinfo : head.info with
  | none => rfl
  | some info =>
    rw [hinfo] at hdeclare
    cases hdeclare

end LayoutBuilder

/-- No directive of a compiled layout has a name. -/
theorem compile_untitled {options : CompileOptions} {source : String} {schema : Schema}
    (h : compile options source = .ok schema) : schema.layout.EachItem Decl.Untitled :=
  compile_eachItem (LayoutBuilder.ensures_untitled options) h

end RecordLayout
