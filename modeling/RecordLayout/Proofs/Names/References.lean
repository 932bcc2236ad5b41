import RecordLayout.Proofs.Flat.Extension
import RecordLayout.Proofs.Names.Meaning
import RecordLayout.Proofs.Script.TokenPlaces

/-!
# References of a script

The references of a script are the names in the texts of its expressions, in the order in which they
stand there, each with the structures that are open around it. The targets of a layout are the fields
and externals that its expressions name. A reference and its target stand at the same place in the
two sequences, since folding constants takes no name away, and the target is what the reference means
where it stands.
-/

namespace RecordLayout

/-! ## Names in expressions -/

/-- The names of a term, from left to right. -/
def Term.mentions : Term → List Mention
  | .name n => [⟨n, false⟩]
  | .external n => [⟨n, true⟩]
  | .plus t | .group t | .unary _ t => t.mentions
  | .binary _ l r => l.mentions ++ r.mentions
  | .decimal _ | .hex _ _ | .counter => []

/-- The fields and externals of an expression, from left to right. -/
def Expr.targets : Expr → List Target
  | .field info => [.field info]
  | .external name => [.external name]
  | .unary _ e => e.targets
  | .binary _ l r => l.targets ++ r.targets
  | .const _ | .counter => []

namespace Script

/-- The names in the text of an expression. -/
def mentions (text : String) : List Mention :=
  match Term.ofText text with
  | .ok t => t.mentions
  | .error _ => []

/-- The expression of a parameter. -/
def Extra.text? : Extra → Option String
  | .number _ => none
  | .expression text => some text

/-- The expression of an array's length. -/
def Size.text? : Size → Option String
  | .unbounded => none
  | .expression text => some text

/-- The expressions of a declaration, the parameter's first. -/
def Declaration.texts : Declaration → List String
  | .field decl => (decl.extra.bind Extra.text?).toList ++ (decl.size.bind Size.text?).toList
  | .opening _ size => (size.bind Size.text?).toList
  | .closing => []

/-- The structures open behind a declaration, each with its path if it has a name, the innermost
first. -/
def Declaration.openBehind (outer : List (Option String)) : Declaration → List (Option String)
  | .field _ => outer
  | .opening name _ => name.map (joinPath (outer.reduceOption.headD "")) :: outer
  | .closing => outer.tail

/-- A name in an expression of a script. -/
structure Reference where
  /-- The index of the declaration that the expression belongs to. -/
  declaration : Nat
  /-- The paths of the named structures around that declaration, the innermost first. -/
  within : List String
  mention : Mention
  deriving DecidableEq, Repr

/-- The references of a declaration with an index, inside the structures open there. -/
def Declaration.references (n : Nat) (outer : List (Option String)) (d : Declaration) :
    List Reference :=
  (d.texts.flatMap mentions).map (⟨n, outer.reduceOption, ·⟩)

/-- The references of tokens, the first of which has an index and stands inside the structures open
there. -/
def referencesFrom (n : Nat) (outer : List (Option String)) : List Token → List Reference
  | [] => []
  | t :: rest =>
    t.declaration.references n outer ++ referencesFrom (n + 1) (t.declaration.openBehind outer) rest

/-- The references of a script. -/
def references (tokens : List Token) : List Reference := referencesFrom 0 [] tokens

end Script

/-- The targets of an expression, each with the index of the declaration that it belongs to. -/
def AttachedExpr.targets (a : AttachedExpr) : List (Nat × Target) :=
  a.expr.targets.map (a.declaration, ·)

/-- The targets of a layout in document order. -/
def Layout.targets (l : Layout) : List (Nat × Target) := l.exprs.flatMap AttachedExpr.targets

/-- What names are looked up in where a reference stands: every path of the script, the named
structures around, and what is declared in front. -/
def Script.Reference.scope (externals : Externals) (declared : List Declared)
    (r : Script.Reference) : Scope where
  externals := externals
  paths := declared.map (·.info.path)
  enclosing := r.within
  declared := declared.filter (·.info.index < r.declaration)

/-- The target of a reference belongs to the same declaration and is what its name means there. -/
def Script.Reference.Reaches (externals : Externals) (declared : List Declared)
    (r : Script.Reference) (t : Nat × Target) : Prop :=
  t.1 = r.declaration ∧ (r.scope externals declared).Means r.mention t.2

/-! ## Expressions of texts -/

namespace Expr

theorem targets_foldUnary (op : UnaryOp) (e : Expr) : (foldUnary op e).targets = e.targets := by
  cases e <;> rfl

/-- Two operands refer to the same before and after they are folded. -/
theorem targets_foldBinary {op : BinaryOp} {l r e : Expr} (h : foldBinary op l r = some e) :
    e.targets = l.targets ++ r.targets := by
  unfold foldBinary at h
  split at h
  · cases h
  · split at h
    · obtain ⟨v, -, rfl⟩ := Option.map_eq_some_iff.mp h
      rfl
    · cases h
      rfl

theorem targets_target (t : Target) : t.expr.targets = [t] := by
  cases t <;> rfl

end Expr

/-- The names in some texts mean the targets of some expressions. -/
def Scope.Reads (s : Scope) (texts : List String) (es : List Expr) : Prop :=
  List.Forall₂ s.Means (texts.flatMap Script.mentions) (es.flatMap Expr.targets)

theorem Scope.reads_nil (s : Scope) : s.Reads [] [] := .nil

section

variable {s : Scope} (hs : s.Titled)
include hs

/-- Folding takes no name away, so every name of a term has its target. -/
theorem Term.resolve_reads {t : Term} {e : Expr} (h : t.resolve s.names = .ok e) :
    List.Forall₂ s.Means t.mentions e.targets := by
  induction t generalizing e with
  | decimal text =>
    -- A numeral names nothing, whatever its value is.
    simp only [resolve, numeral] at h
    split at h
    · rename_i hnumeral
      split at hnumeral
      · cases hnumeral
        cases h
        exact .nil
      · cases hnumeral
    · cases h
  | hex mark digits =>
    simp only [resolve, numeral] at h
    split at h
    · rename_i hnumeral
      split at hnumeral
      · cases hnumeral
        cases h
        exact .nil
      · cases hnumeral
    · cases h
  | counter =>
    cases h
    exact .nil
  | external name =>
    obtain ⟨target, rfl, hmeans⟩ := Scope.external_means (s := s) h
    rw [Expr.targets_target]
    exact .cons hmeans .nil
  | name name =>
    obtain ⟨target, rfl, hmeans⟩ := Scope.resolve_means hs h
    rw [Expr.targets_target]
    exact .cons hmeans .nil
  | plus t ih | group t ih => exact ih h
  | unary op t ih =>
    obtain ⟨operand, hoperand, h⟩ := except_bind_eq_ok.mp h
    cases h
    rw [Expr.targets_foldUnary]
    exact ih hoperand
  | binary op l r ihl ihr =>
    obtain ⟨left, hleft, h⟩ := except_bind_eq_ok.mp h
    obtain ⟨right, hright, h⟩ := except_bind_eq_ok.mp h
    split at h
    · rename_i hfold
      cases h
      rw [Expr.targets_foldBinary hfold]
      exact List.rel_append (ihl hleft) (ihr hright)
    · cases h

/-- The text of an expression refers to what the expression stands for, in the same order. -/
theorem Expr.ofText_reads {text : String} {e : Expr} (h : Expr.ofText s.names text = .ok e) :
    s.Reads [text] [e] := by
  rw [Scope.Reads, List.flatMap_singleton, List.flatMap_singleton]
  unfold Script.mentions
  unfold Expr.ofText at h
  cases hterm : Term.ofText text with
  | ok t =>
    rw [hterm] at h
    exact Term.resolve_reads hs h
  | error attempts =>
    rw [hterm] at h
    cases h

/-- A text of a constant has no names. -/
theorem Expr.ofText_const {text : String} {n : Int64} (h : Expr.ofText s.names text = .ok (.const n)) :
    s.Reads [text] [] := Expr.ofText_reads hs h

end

/-! ## Declarations -/

namespace LayoutBuilder

theorem noAmount_eq_ok {kind : Kind} {extra : Option Script.Extra}
    (h : noAmount kind extra = .ok ()) : extra = none := by
  cases extra with
  | none => rfl
  | some extra => cases h

theorem expr?_of_constant {kind : Kind} {n : Int64} {a : Amount} (h : constant kind n = .ok a) :
    a.expr? = none := by
  unfold constant at h
  split at h
  · cases h
  · split at h
    · cases h
    · split at h
      · cases h
      · split at h
        · cases h
          rfl
        · cases h

section

variable {scope s : Scope} (hnames : scope.names = s.names) (hs : s.Titled)
include hnames hs

/-- The references of a parameter are those of its text. -/
theorem amount_reads {kind : Kind} {extra : Script.Extra} {a : Amount}
    (h : amount scope kind extra = .ok a) : s.Reads extra.text?.toList a.expr?.toList := by
  cases extra with
  | number n =>
    rw [expr?_of_constant h]
    exact s.reads_nil
  | expression text =>
    unfold amount at h
    rw [hnames] at h
    obtain ⟨e, he, h⟩ := except_bind_eq_ok.mp h
    split at h
    · rw [expr?_of_constant h]
      exact Expr.ofText_const hs he
    · cases h
      exact Expr.ofText_reads hs he

theorem amountOrOne_reads {kind : Kind} {extra : Option Script.Extra} {a : Amount}
    (h : amountOrOne scope kind extra = .ok a) :
    s.Reads (extra.bind Script.Extra.text?).toList a.expr?.toList := by
  cases extra with
  | none =>
    cases h
    exact s.reads_nil
  | some extra => exact amount_reads hnames hs h

theorem computedAmount_reads {extra : Option Script.Extra} {a : Amount}
    (h : computedAmount scope extra = .ok a) :
    s.Reads (extra.bind Script.Extra.text?).toList a.expr?.toList := by
  unfold computedAmount at h
  rw [hnames] at h
  split at h
  · cases h
  · cases h
    exact s.reads_nil
  · rename_i text
    cases he : Expr.ofText s.names text with
    | error e =>
      rw [he] at h
      cases h
    | ok e =>
      rw [he] at h
      cases h
      exact Expr.ofText_reads hs he

/-- Those of a length are those of its size. -/
theorem arrayLength_reads {repeated : Bool} {size : Option Script.Size} {length : Option Length}
    (h : arrayLength scope repeated size = .ok length) :
    s.Reads (size.bind Script.Size.text?).toList (length.bind Length.expr?).toList := by
  unfold arrayLength at h
  rw [hnames] at h
  split at h
  · cases h
    exact s.reads_nil
  · split at h
    · cases h
    · cases h
      exact s.reads_nil
  · obtain ⟨e, he, h⟩ := except_bind_eq_ok.mp h
    split at h
    · split at h
      · cases h
        exact Expr.ofText_const hs he
      · cases h
    · cases h
      exact Expr.ofText_reads hs he

/-- Those of a type are those of its parameter. -/
theorem elementType_reads {options : CompileOptions} {decl : Script.FieldDecl}
    {builtIn : Option BuiltIn} {type : ElementType}
    (h : elementType scope options decl builtIn = .ok type) (length : Option Length) :
    s.Reads (decl.extra.bind Script.Extra.text?).toList
      ((Decl.value type length).amount.bind Amount.expr?).toList := by
  unfold elementType at h
  split at h
  · obtain ⟨⟨⟩, hnone, h⟩ := except_bind_eq_ok.mp h
    cases h
    rw [noAmount_eq_ok hnone]
    exact s.reads_nil
  · cases ha : amountOrOne scope (.builtIn .bit) decl.extra with
    | error e =>
      rw [ha] at h
      cases h
    | ok a =>
      rw [ha] at h
      cases h
      exact amountOrOne_reads hnames hs ha
  · obtain ⟨⟨⟩, hnone, h⟩ := except_bind_eq_ok.mp h
    cases h
    rw [noAmount_eq_ok hnone]
    exact s.reads_nil
  · obtain ⟨use, -, h⟩ := except_bind_eq_ok.mp h
    cases hextra : decl.extra with
    | none =>
      rw [hextra] at h
      cases h
      exact s.reads_nil
    | some extra =>
      rw [hextra] at h
      dsimp only at h
      cases ha : amount scope .custom extra with
      | error e =>
        rw [ha] at h
        cases h
      | ok a =>
        rw [ha] at h
        cases h
        exact amount_reads hnames hs ha

omit hnames hs in
theorem reads_append {texts texts' : List String} {es es' : List Expr} (h : s.Reads texts es)
    (h' : s.Reads texts' es') : s.Reads (texts ++ texts') (es ++ es') := by
  rw [Scope.Reads, List.flatMap_append, List.flatMap_append]
  exact List.rel_append h h'

/-- The names in the texts of a field mean the targets of what it declares. -/
theorem fieldDecl_reads {options : CompileOptions} {repeated : Bool} {decl : Script.FieldDecl}
    {item : Decl} {numeric : Bool}
    (h : fieldDecl scope options repeated decl = .ok (item, numeric)) :
    s.Reads (Script.Declaration.field decl).texts item.exprs := by
  unfold fieldDecl at h
  split at h
  · obtain ⟨⟨⟩, hcheck, h⟩ := except_bind_eq_ok.mp h
    obtain ⟨a, ha, h⟩ := except_bind_eq_ok.mp h
    cases h
    refine reads_append (amountOrOne_reads hnames hs ha) ?_
    rw [size_of_checkDirective hcheck]
    exact s.reads_nil
  · obtain ⟨⟨⟩, hcheck, h⟩ := except_bind_eq_ok.mp h
    obtain ⟨a, ha, h⟩ := except_bind_eq_ok.mp h
    cases h
    refine reads_append (amountOrOne_reads hnames hs ha) ?_
    rw [size_of_checkDirective hcheck]
    exact s.reads_nil
  · obtain ⟨⟨⟩, hcheck, h⟩ := except_bind_eq_ok.mp h
    obtain ⟨⟨⟩, hnone, h⟩ := except_bind_eq_ok.mp h
    cases h
    rw [Script.Declaration.texts, noAmount_eq_ok hnone, size_of_checkDirective hcheck]
    exact s.reads_nil
  · obtain ⟨⟨⟩, hcheck, h⟩ := except_bind_eq_ok.mp h
    obtain ⟨a, ha, h⟩ := except_bind_eq_ok.mp h
    cases h
    refine reads_append (computedAmount_reads hnames hs ha) ?_
    rw [size_of_checkComputed hcheck]
    exact s.reads_nil
  · obtain ⟨element, helement, h⟩ := except_bind_eq_ok.mp h
    obtain ⟨length, hlength, h⟩ := except_bind_eq_ok.mp h
    cases h
    exact reads_append (elementType_reads hnames hs helement length)
      (arrayLength_reads hnames hs hlength)

end

end LayoutBuilder

end RecordLayout
