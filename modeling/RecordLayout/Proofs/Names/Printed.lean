import RecordLayout.Proofs.Names.Rendered
import RecordLayout.Proofs.Table.Printing

/-!
# Printed expressions of blocks

Expressions are compiled against a block if the names in their texts stand for fields of the block
or, as externals, for themselves. Those that are attached to its declarations are compiled so. Their
constants are folded, the paths of their fields differ, and their externals are names of the grammar,
with or without points. So what is printed of them tells them apart
(`Block.printing_is_exact_and_unambiguous`).
-/

namespace RecordLayout

namespace Block

/-- The expression comes of a text, with names that stand for fields of the block or for
themselves. -/
def Compiles (b : Block) (v : Evaluator) : Prop :=
  ∃ names : Names, names.Within b.names ∧
    ∃ text e, Expr.ofText names text = .ok e ∧ v = .ofExpr b.names e

theorem Compiles.closed {b : Block} {v : Evaluator} (h : b.Compiles v) :
    ∃ e : Expr, e.Closed b.names ∧ v = .ofExpr b.names e := by
  obtain ⟨names, hnames, text, e, htext, rfl⟩ := h
  exact ⟨e, Expr.closed_of_ofText hnames htext, rfl⟩

variable {options : CompileOptions} {source : String} {schema : Schema}

/-- The expressions that are attached to declarations are compiled against the block. -/
theorem compiles_attached (h : compile options source = .ok schema) :
    ∀ a ∈ (schema.layout.block options.customs).evaluators,
      (schema.layout.block options.customs).Compiles a.evaluator := by
  intro a ha
  obtain ⟨spelled, hspelled, rfl⟩ := List.mem_map.mp ha
  obtain ⟨s, hdeclared, text, htext⟩ := compile_spells_declared h spelled hspelled
  refine ⟨s.names, Scope.names_within fun d hd => ?_, text, spelled.expr, htext, rfl⟩
  show d.info ∈ schema.layout.infos
  rw [Layout.infos_eq_declared]
  exact List.mem_map_of_mem (hdeclared d hd)

/-- What is printed of a closed expression of a layout is printed of no other one. -/
theorem eq_of_render_eq (h : compile options source = .ok schema) {e e' : Expr}
    (he : e.Closed schema.layout.infos) (he' : e'.Closed schema.layout.infos)
    (hrender : e.render = e'.render) : e = e' := by
  have hpath := compile_isPath h
  have hfound := Layout.findName?_path (paths_nodup_of_compile h)
  let field (path : String) : FieldInfo := (schema.layout.findName? path).getD ⟨path, path, 0⟩
  have hfield : ∀ info ∈ schema.layout.infos, field info.path = info :=
    fun info hinfo => congrArg (Option.getD · _) (hfound info hinfo)
  rw [e.render_eq_text, e'.render_eq_text] at hrender
  exact Expr.eq_of_text_eq field
    ⟨fun info hinfo => hpath info (he.fields info hinfo), he.externals⟩
    ⟨fun info hinfo => hpath info (he'.fields info hinfo), he'.externals⟩ he.folded he'.folded
    (fun info hinfo => hfield info (he.fields info hinfo))
    (fun info hinfo => hfield info (he'.fields info hinfo)) hrender

/-- The printers end with an empty stack and with the text of the expression, whatever the
expression, with names or with numbers that a block explains. The expressions that are compiled
against the block of a layout, its own among them, have a text each, and no two have the same. -/
theorem printing_is_exact_and_unambiguous :
    (∀ e : Expr, e.items.foldl Expr.Printer.take .empty = ⟨[], e.text⟩) ∧
    (∀ (b : Block) (v : Evaluator), b.print v = (v.text b.names).map fun t => ⟨[], t⟩) ∧
    ∀ (options : CompileOptions) (source : String) (schema : Schema),
      compile options source = .ok schema →
        let b := schema.layout.block options.customs
        (∀ a ∈ b.evaluators, b.Compiles a.evaluator) ∧
        (∀ v, b.Compiles v → ∃ e : Expr, v = .ofExpr b.names e ∧ b.render v = .ok e.render) ∧
        ∀ v v', b.Compiles v → b.Compiles v' → b.render v = b.render v' → v = v' := by
  refine ⟨Expr.items_printed, print_eq, fun options source schema h => ?_⟩
  refine ⟨compiles_attached h, fun v hv => ?_, fun v v' hv hv' hrender => ?_⟩
  · obtain ⟨e, he, rfl⟩ := hv.closed
    exact ⟨e, rfl, render_ofExpr he.fields⟩
  · obtain ⟨e, he, rfl⟩ := hv.closed
    obtain ⟨e', he', rfl⟩ := hv'.closed
    rw [render_ofExpr he.fields, render_ofExpr he'.fields] at hrender
    rw [eq_of_render_eq h he he' (Except.ok.inj hrender)]

end Block

/-- A script with two texts of one expression, which has the least constant and an external with a
point in its name. -/
def twiceSource : String :=
  "ubyte n; byte [n-(1<<63)*a.b] x; byte [n-(-1<<63)*a.b] y;"

/-- The length in that script. -/
def twiceExpr : Expr :=
  .binary .sub (.field ⟨"n", "n", 0⟩) (.binary .mul (.const Int64.minValue) (.external "a.b"))

/-- The names in that script. -/
def twiceNames : List FieldInfo := [⟨"n", "n", 0⟩, ⟨"x", "x", 1⟩, ⟨"y", "y", 2⟩]

set_option maxRecDepth 2000 in
theorem tables_twice :
    (compile {} twiceSource).map (fun schema => (schema.layout.infos, schema.layout.exprs)) =
      .ok (twiceNames, [⟨1, twiceExpr⟩, ⟨2, twiceExpr⟩]) := by
  cbv

/-- The two evaluators have one text, and so they are one. -/
theorem printed_twice :
    ∃ schema v v', compile {} twiceSource = .ok schema ∧
      (schema.layout.block []).evaluators = [⟨1, v⟩, ⟨2, v'⟩] ∧
      (schema.layout.block []).render v = .ok "(n - (-9223372036854775808 * $a.b))" ∧
      (schema.layout.block []).render v' = .ok "(n - (-9223372036854775808 * $a.b))" ∧ v = v' := by
  have htables := tables_twice
  cases hcompile : compile {} twiceSource with
  | error e =>
    rw [hcompile] at htables
    cases htables
  | ok schema =>
    rw [hcompile] at htables
    obtain ⟨hnames, hexprs⟩ := Prod.mk.inj (Except.ok.inj htables)
    have hevaluators : (schema.layout.block []).evaluators =
        [⟨1, .ofExpr twiceNames twiceExpr⟩, ⟨2, .ofExpr twiceNames twiceExpr⟩] := by
      rw [Layout.block, hnames, hexprs]
      rfl
    have hfields : ∀ info ∈ twiceExpr.fields, info ∈ twiceNames := by decide
    have htext : twiceExpr.render = "(n - (-9223372036854775808 * $a.b))" := by decide
    have hrender : (schema.layout.block []).render (.ofExpr twiceNames twiceExpr) =
        .ok "(n - (-9223372036854775808 * $a.b))" := by
      rw [Layout.block, hnames, Block.render_ofExpr hfields, htext]
    obtain ⟨hattached, -, hsame⟩ :=
      Block.printing_is_exact_and_unambiguous.2.2 {} twiceSource schema hcompile
    refine ⟨schema, _, _, rfl, hevaluators, hrender, hrender, ?_⟩
    exact hsame _ _ (hattached ⟨1, _⟩ (by rw [hevaluators]; exact List.mem_cons_self))
      (hattached ⟨2, _⟩ (by rw [hevaluators]; exact List.mem_cons_of_mem _ List.mem_cons_self)) rfl

end RecordLayout
