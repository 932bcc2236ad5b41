import RecordLayout.Proofs.Codec.Conformance
import RecordLayout.Proofs.Expr.Rendering
import RecordLayout.Proofs.Names.Soundness

/-!
# Printed expressions of layouts

The expressions of a compiled layout were spelled by texts of its script. So their constants are
folded, their fields have the paths of declarations, and their externals are names of the grammar,
with or without points. With the paths and the externals looked up, the text that the printer makes
of an expression is read as that expression, unless it has the least constant or a point in an
external (`compile_rendered_reads`).
-/

namespace RecordLayout

open Script (Token Declaration)
open Script.Scanner (IsName IsPath toList_parts laterParts)

/-! ## Names and paths -/

theorem isPath_of_isName {n : String} (h : IsName n.toList) : IsPath n :=
  ⟨n, [], by simp, List.forall_mem_singleton.mpr h⟩

/-- A name inside a structure with a path has a path. -/
theorem isPath_joinPath {outer name : String} (houter : outer = "" ∨ IsPath outer)
    (h : IsName name.toList) : IsPath (joinPath outer name) := by
  by_cases hempty : outer = ""
  · rw [hempty]
    exact isPath_of_isName h
  · obtain ⟨first, more, rfl, hparts⟩ := houter.resolve_left hempty
    rw [Scope.joinPath_eq hempty]
    refine ⟨first, more ++ [name], ?_, ?_⟩
    · apply String.toList_injective
      rw [String.toList_append, String.toList_append, toList_parts, toList_parts]
      simp [laterParts]
    · intro part hpart
      rw [← List.cons_append] at hpart
      rcases List.mem_append.mp hpart with hpart | hpart
      · exact hparts part hpart
      · rwa [List.mem_singleton.mp hpart]

/-- What tokens declare has paths, if the structures around have. -/
theorem isPath_of_declaredFrom {tokens : List Token}
    (hnames : ∀ t ∈ tokens, t.declaration.Named (IsName ·.toList)) {outer : List String}
    (houter : ∀ path ∈ outer, path = "" ∨ IsPath path) :
    ∀ path ∈ Script.declaredFrom outer tokens, IsPath path := by
  induction tokens generalizing outer with
  | nil => exact fun path h => absurd h List.not_mem_nil
  | cons t tokens ih =>
    obtain ⟨hname, hnames⟩ := List.forall_mem_cons.mp hnames
    have hhere : outer.head?.getD "" = "" ∨ IsPath (outer.head?.getD "") := by
      cases outer with
      | nil => exact .inl rfl
      | cons path outer => exact houter path List.mem_cons_self
    rw [Script.declaredFrom]
    cases hdeclaration : t.declaration with
    | field decl =>
      rw [hdeclaration] at hname
      intro path hpath
      rcases List.mem_append.mp hpath with hpath | hpath
      · obtain ⟨n, hn, rfl⟩ := Option.map_eq_some_iff.mp (Option.mem_toList.mp hpath)
        exact isPath_joinPath hhere (hname n hn)
      · exact ih hnames houter path hpath
    | opening name size =>
      rw [hdeclaration] at hname
      cases name with
      | none => exact ih hnames (List.forall_mem_cons.mpr ⟨hhere, houter⟩)
      | some name =>
        have hinside := isPath_joinPath hhere (hname name rfl)
        exact List.forall_mem_cons.mpr
          ⟨hinside, ih hnames (List.forall_mem_cons.mpr ⟨.inr hinside, houter⟩)⟩
    | closing => exact ih hnames fun path hpath => houter path (List.mem_of_mem_tail hpath)

/-! ## Spelled expressions -/

/-- The names stand for some of these fields or, as externals, for themselves. -/
structure Names.Within (names : Names) (infos : List FieldInfo) : Prop where
  field : ∀ n e, names.field n = .ok e → (∃ info ∈ infos, e = .field info) ∨ e = .external n
  external : ∀ n e, names.external n = .ok e → e = .external n

theorem Scope.names_within {s : Scope} {infos : List FieldInfo}
    (h : ∀ d ∈ s.declared, d.info ∈ infos) : s.names.Within infos where
  field n e he := by
    rcases resolve_cases he with ⟨info, hinfo, rfl⟩ | he
    · exact .inl ⟨info, h _ hinfo, rfl⟩
    · exact .inr (external_eq_ok he).2
  external n e he := (external_eq_ok he).2

namespace Expr

/-- A folded expression with some of these fields and with externals of the grammar. -/
structure Closed (infos : List FieldInfo) (e : Expr) : Prop where
  folded : e.fold = .ok e
  fields : ∀ info ∈ e.fields, info ∈ infos
  externals : ∀ n ∈ e.externals, IsPath n

variable {names : Names} {infos : List FieldInfo} {text : String} {e : Expr}

/-- Folding brings in no external. -/
theorem kept_externals (Q : String → Prop) : Kept fun e => ∀ n ∈ e.externals, Q n :=
  Kept.collected (f := externals) (fun _ => rfl) rfl (fun _ _ => rfl) (fun _ _ _ => rfl) Q

/-- Folding brings in no field. -/
theorem kept_fields (Q : FieldInfo → Prop) : Kept fun e => ∀ info ∈ e.fields, Q info :=
  Kept.collected (f := fields) (fun _ => rfl) rfl (fun _ _ => rfl) (fun _ _ _ => rfl) Q

/-- What names stand for is closed. -/
theorem closed_of_ofText (hnames : names.Within infos) (h : ofText names text = .ok e) :
    e.Closed infos := by
  have hname : ∀ n (e : Expr), IsPath n →
      ((∃ info ∈ infos, e = .field info) ∨ e = .external n) → e.Closed infos := by
    rintro n e hn (⟨info, hinfo, rfl⟩ | rfl)
    · exact ⟨rfl, List.forall_mem_singleton.mpr hinfo, nofun⟩
    · exact ⟨rfl, nofun, List.forall_mem_singleton.mpr hn⟩
  have hfield := fun n e hn he => hname n e hn (hnames.field n e he)
  have hexternal := fun n e hn he =>
    hname n e (isPath_of_isName hn) (.inr (hnames.external n e he))
  exact
    { folded := ofText_closed kept_folded (fun n e hn he => (hfield n e hn he).folded)
        (fun n e hn he => (hexternal n e hn he).folded) h
      fields := ofText_closed (kept_fields (· ∈ infos)) (fun n e hn he => (hfield n e hn he).fields)
        (fun n e hn he => (hexternal n e hn he).fields) h
      externals := ofText_closed (kept_externals IsPath)
        (fun n e hn he => (hfield n e hn he).externals)
        (fun n e hn he => (hexternal n e hn he).externals) h }

end Expr

namespace Scope.Spells

variable {s : Scope} {e : Expr}

theorem closed (h : s.Spells e) : e.Closed (s.declared.map (·.info)) := by
  obtain ⟨text, h⟩ := h
  exact Expr.closed_of_ofText (names_within fun _ => List.mem_map_of_mem) h

/-- What a text spells is folded. -/
theorem folded (h : s.Spells e) : e.fold = .ok e := h.closed.folded

/-- The externals that a text spells are names, with or without points. -/
theorem externals (h : s.Spells e) : ∀ n ∈ e.externals, IsPath n := h.closed.externals

end Scope.Spells

/-- Every expression of a compiled layout is what some text spells among names of the layout. -/
theorem compile_spells_declared {options : CompileOptions} {source : String} {schema : Schema}
    (h : compile options source = .ok schema) :
    ∀ a ∈ schema.layout.exprs,
      ∃ s : Scope, (∀ d ∈ s.declared, d ∈ schema.layout.declared) ∧ s.Spells a.expr := by
  obtain ⟨tokens, -, h⟩ := except_bind_eq_ok.mp h
  obtain ⟨layout, hlayout, h⟩ := except_bind_eq_ok.mp h
  cases h
  obtain ⟨b, hb, hfinish⟩ := except_bind_eq_ok.mp hlayout
  obtain ⟨hopened, rfl⟩ := LayoutBuilder.finish_eq_ok hfinish
  have hkept := LayoutBuilder.kept_by_tokens
    (P := fun b => ∀ a ∈ LayoutBuilder.exprs b.opened b.body,
      ∃ s : Scope, (∀ d ∈ s.declared, d ∈ b.declared) ∧ s.Spells a.expr)
    (fun b b' t hb ht a ha => ?_) (fun a ha => absurd ha List.not_mem_nil) hb
  · rw [hopened, LayoutBuilder.declared_of_tokens hb hopened] at hkept
    exact hkept
  · have hadds := LayoutBuilder.token_adds ht
    obtain ⟨new, hdeclared, -⟩ := hadds.declared
    obtain ⟨es, hes, hspells, -⟩ := hadds.exprs
    have hgrows : ∀ d ∈ b.declared, d ∈ b'.declared := by
      rw [hdeclared]
      exact fun d => List.mem_append_left new
    rw [hes] at ha
    rcases List.mem_append.mp ha with ha | ha
    · obtain ⟨s, hs, hspells⟩ := hb a ha
      exact ⟨s, fun d hd => hgrows d (hs d hd), hspells⟩
    · obtain ⟨e, he, rfl⟩ := List.mem_map.mp ha
      exact ⟨_, hgrows, hspells e he⟩

/-- Every expression of a compiled layout is what some text spells. -/
theorem compile_spells {options : CompileOptions} {source : String} {schema : Schema}
    (h : compile options source = .ok schema) :
    ∀ a ∈ schema.layout.exprs, ∃ s : Scope, s.Spells a.expr :=
  fun a ha => (compile_spells_declared h a ha).imp fun _ hs => hs.2

/-- Every name of a compiled layout has a path of the grammar. -/
theorem compile_isPath {options : CompileOptions} {source : String} {schema : Schema}
    (h : compile options source = .ok schema) : ∀ info ∈ schema.layout.infos, IsPath info.path := by
  obtain ⟨tokens, htokens, h⟩ := except_bind_eq_ok.mp h
  obtain ⟨layout, hlayout, h⟩ := except_bind_eq_ok.mp h
  cases h
  obtain ⟨b, hb, hfinish⟩ := except_bind_eq_ok.mp hlayout
  obtain ⟨hopened, rfl⟩ := LayoutBuilder.finish_eq_ok hfinish
  have hpaths := LayoutBuilder.tokens_paths LayoutBuilder.inside_empty hb
  rw [LayoutBuilder.declared_of_tokens hb hopened] at hpaths
  intro info hinfo
  rw [Layout.infos_eq_declared] at hinfo
  obtain ⟨d, hd, rfl⟩ := List.mem_map.mp hinfo
  have hmem : d.info.path ∈ b.body.declared.map (·.info.path) := List.mem_map_of_mem hd
  rw [hpaths] at hmem
  exact isPath_of_declaredFrom (Script.tokenize_names htokens)
    (fun path hpath => absurd hpath List.not_mem_nil) _ hmem

/-! ## Looking names up again -/

/-- Each path of the layout stands for its field, and each external for itself. -/
structure Names.Cover (names : Names) (l : Layout) : Prop where
  field : ∀ info ∈ l.infos, names.field info.path = .ok (.field info)
  external : ∀ n, names.external n = .ok (.external n)

/-- The names of a finished layout; any other name is external. -/
def Layout.names (l : Layout) : Names :=
  ⟨fun n => .ok (((l.findName? n).map Expr.field).getD (.external n)), fun n => .ok (.external n)⟩

/-- Where paths differ, each one is found as that of its field. -/
theorem Layout.findName?_path {l : Layout} (h : (l.infos.map FieldInfo.path).Nodup) :
    ∀ info ∈ l.infos, l.findName? info.path = some info := by
  intro info hinfo
  cases hfind : l.findName? info.path with
  | none => exact absurd (beq_self_eq_true _) (List.find?_eq_none.mp hfind info hinfo)
  | some other =>
    have hpath := List.find?_some hfind
    have hmem := List.mem_of_find?_eq_some hfind
    rw [List.inj_on_of_nodup_map h hmem hinfo (beq_iff_eq.mp hpath)]

/-- Where paths differ, each one is looked up as its field. -/
theorem Layout.names_cover {l : Layout} (h : (l.infos.map FieldInfo.path).Nodup) :
    l.names.Cover l where
  field info hinfo := by
    show Except.ok (((l.findName? info.path).map Expr.field).getD _) = _
    rw [findName?_path h info hinfo]
    rfl
  external _ := rfl

/-- A printed expression of a compiled layout is read as the expression, with its constants folded and
its names looked up in the layout, if it is legible. Otherwise its text is refused for its syntax. -/
theorem compile_rendered_reads {options : CompileOptions} {source : String} {schema : Schema}
    (h : compile options source = .ok schema) {names : Names} (hnames : names.Cover schema.layout) :
    ∀ a ∈ schema.layout.exprs,
      (a.expr.Legible → Expr.ofText names a.expr.render = .ok a.expr) ∧
        (¬ a.expr.Legible → ∃ cause, Expr.ofText names a.expr.render = .error cause ∧
          cause.isReference = false) := by
  intro a ha
  obtain ⟨s, hspells⟩ := compile_spells h a ha
  have hfields : ∀ info ∈ a.expr.fields, info ∈ schema.layout.infos := by
    intro info hinfo
    rw [Layout.infos_eq_declared]
    exact List.mem_map_of_mem ((compile_scoped h).knows a ha info hinfo)
  exact Expr.ofText_render
    ⟨fun info hinfo => compile_isPath h info (hfields info hinfo), hspells.externals⟩
    hspells.folded
    ⟨fun info hinfo => hnames.field info (hfields info hinfo), fun n _ => hnames.external n⟩

/-- A script with one sign behind another, a negative constant and an external. -/
def signsSource : String := "ubyte n; byte [~-n - -7 * $k] d;"

/-- The length in that script. -/
def signsExpr : Expr :=
  .binary .sub (.unary .not (.unary .neg (.field ⟨"n", "n", 0⟩)))
    (.binary .mul (.const (-7)) (.external "k"))

theorem exprs_signs : (compile {} signsSource).map (·.layout.exprs) = .ok [⟨1, signsExpr⟩] := by
  cbv

/-- Signs in front of a name are kept, a negative constant has one of its own, and the text is read
back. -/
theorem rendered_reads_signs :
    ∃ schema, compile {} signsSource = .ok schema ∧ schema.layout.names.Cover schema.layout ∧
      ⟨1, signsExpr⟩ ∈ schema.layout.exprs ∧ signsExpr.Legible ∧
        signsExpr.render = "(~-n - (-7 * $k))" ∧
          Expr.ofText schema.layout.names signsExpr.render = .ok signsExpr := by
  have hexprs := exprs_signs
  cases hcompile : compile {} signsSource with
  | error e =>
    rw [hcompile] at hexprs
    cases hexprs
  | ok schema =>
    rw [hcompile] at hexprs
    have hcover := Layout.names_cover (paths_nodup_of_compile hcompile)
    have hmem : ⟨1, signsExpr⟩ ∈ schema.layout.exprs :=
      List.mem_of_mem_head? (congrArg List.head? (Except.ok.inj hexprs))
    have hlegible : signsExpr.Legible :=
      ⟨List.forall_mem_singleton.mpr (by decide), List.forall_mem_singleton.mpr (by decide)⟩
    have hrender : signsExpr.render = "(~-n - (-7 * $k))" := by decide
    exact ⟨schema, rfl, hcover, hmem, hlegible, hrender,
      (compile_rendered_reads hcompile hcover _ hmem).1 hlegible⟩

/-- The layout of a value with the least constant. -/
def leastLayout : Layout :=
  .item ⟨0, some ⟨"x", "x", 0⟩, .big, ⟨0, 1, 1⟩⟩ (.computed (.computed (.const Int64.minValue))) .done

/-- The layout of an array whose length is an external with a point in its name. -/
def dottedLayout : Layout :=
  .item ⟨0, some ⟨"d", "d", 0⟩, .big, ⟨0, 1, 1⟩⟩
    (.value (.fixed .byte) (some (.computed (.external "a.b")))) .done

/-- The least constant and an external with a point in its name are printed as texts that are refused. -/
theorem rendered_refused_least_dotted :
    (compile {} "val:(1<<63) x;" = .ok ⟨"val:(1<<63) x;", leastLayout⟩ ∧
      leastLayout.names.Cover leastLayout ∧
      leastLayout.exprs.map (·.expr.render) = ["-9223372036854775808"] ∧
      Expr.ofText leastLayout.names "-9223372036854775808" =
        .error (.badNumber "9223372036854775808")) ∧
    compile {} "byte [a.b] d;" = .ok ⟨"byte [a.b] d;", dottedLayout⟩ ∧
      dottedLayout.names.Cover dottedLayout ∧
      dottedLayout.exprs.map (·.expr.render) = ["$a.b"] ∧
      ∀ e, Expr.ofText dottedLayout.names "$a.b" ≠ .ok e := by
  refine ⟨⟨by cbv, Layout.names_cover (by decide), by decide, by cbv⟩, by cbv,
    Layout.names_cover (by decide), by decide, ?_⟩
  have hrefused : (Expr.ofText dottedLayout.names "$a.b").toOption = none := by cbv
  intro e he
  rw [he] at hrefused
  cases hrefused

end RecordLayout
