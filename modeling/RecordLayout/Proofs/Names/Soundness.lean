import RecordLayout.Proofs.Names.References

/-!
# Names are resolved soundly

The paths that a script declares are computed twice: from the tokens alone, to know what is declared
anywhere, and by the builder, which knows what is declared so far. The two agree, whatever structures
are open and whether or not they have names. So each reference of a script is looked up in what it
sees of the finished layout, and it reaches a target that is what its name means there.
-/

namespace RecordLayout

open Script (Token Declaration referencesFrom)

/-! ## Paths inside structures -/

/-- The path of what is declared inside each of some open structures: that of the innermost with a
name. -/
def inheritedPaths : List (Option String) → List String
  | [] => []
  | s :: outer => (s :: outer).reduceOption.headD "" :: inheritedPaths outer

theorem head?_inheritedPaths (outer : List (Option String)) :
    (inheritedPaths outer).head?.getD "" = outer.reduceOption.headD "" := by
  cases outer <;> rfl

/-- A structure without a name gives a name nothing that the named one around it does not give. -/
theorem findSome?_inheritedPaths {α : Type} {f : String → Option α} (hf : f "" = none)
    (outer : List (Option String)) :
    (inheritedPaths outer).findSome? f = outer.reduceOption.findSome? f := by
  induction outer with
  | nil => rfl
  | cons s outer ih =>
    rw [inheritedPaths, List.findSome?_cons, ih]
    cases s with
    | some path => rfl
    | none =>
      rw [List.reduceOption_cons_of_none]
      cases outer.reduceOption with
      | nil =>
        rw [List.headD_nil, hf]
      | cons path more =>
        rw [List.headD_cons, List.findSome?_cons]
        cases f path <;> rfl

/-- The structures that are named have paths. -/
def Titles (outer : List (Option String)) : Prop := ∀ path ∈ outer.reduceOption, path ≠ ""

theorem joinPath_ne {outer name : String} (h : name ≠ "") : joinPath outer name ≠ "" := by
  unfold joinPath
  split
  · exact h
  · intro hempty
    have hlist := congrArg String.toList hempty
    rw [String.toList_append] at hlist
    exact h (String.toList_injective (List.append_eq_nil_iff.mp hlist).2)

/-- A structure with a name has a title for what is declared inside it. -/
theorem Titles.openBehind {outer : List (Option String)} (h : Titles outer) {d : Declaration}
    (hname : d.Named (· ≠ "")) : Titles (d.openBehind outer) := by
  cases d with
  | field decl => exact h
  | opening name size =>
    cases name with
    | none => exact h
    | some name =>
      intro path hpath
      rcases List.mem_cons.mp hpath with rfl | hpath
      · exact joinPath_ne (hname name rfl)
      · exact h path hpath
  | closing =>
    intro path hpath
    apply h path
    rw [List.reduceOption_mem_iff] at hpath ⊢
    exact List.mem_of_mem_tail hpath

namespace LayoutBuilder

variable {options : CompileOptions} {paths : List String} {b b' : LayoutBuilder}
  {outer : List (Option String)}

/-! ## What one declaration adds -/

/-- The builder stands inside these structures. -/
def Inside (b : LayoutBuilder) (outer : List (Option String)) : Prop :=
  b.opened.map OpenStruct.path = inheritedPaths outer

theorem inside_empty : Inside .empty [] := rfl

theorem path_eq (b : LayoutBuilder) : b.path = (b.opened.map OpenStruct.path).head?.getD "" := by
  rw [path, List.head?_map]

theorem Inside.path (h : b.Inside outer) : b.path = outer.reduceOption.headD "" := by
  rw [path_eq, h, head?_inheritedPaths]

/-- The name that a declaration declares, with its path and its index. -/
def Declares (b : LayoutBuilder) (name : Option String) (new : List Declared) : Prop :=
  ∃ numeric, new = name.toList.map fun n => ⟨⟨joinPath b.path n, n, b.next⟩, numeric⟩

/-- A name that is declared gets its path, and the fields of the structures around it are still
there. -/
theorem declare_eq_ok {name : Option String} {numeric : Bool} {info : Option FieldInfo}
    {declared : List Declared} (h : b.declare name numeric = .ok (info, declared)) :
    info = name.map (fun n => ⟨joinPath b.path n, n, b.next⟩) ∧
      ∃ new, declared = b.declared ++ new ∧ b.Declares name new := by
  unfold declare at h
  split at h
  · cases h
    exact ⟨rfl, [], (List.append_nil _).symm, false, rfl⟩
  · dsimp only at h
    split at h
    · cases h
    · cases h
      exact ⟨rfl, _, rfl, numeric, rfl⟩

/-- What a token adds: an index, the name it declares, and its expressions. -/
structure Adds (options : CompileOptions) (paths : List String) (b b' : LayoutBuilder)
    (d : Declaration) : Prop where
  next : b'.next = b.next + 1
  declared : ∃ new, b'.declared = b.declared ++ new ∧ b.Declares d.name? new
  inside : ∀ outer, b.Inside outer → b'.Inside (d.openBehind outer)
  exprs : ∃ es, exprs b'.opened b'.body = exprs b.opened b.body ++ es.map (⟨b.next, ·⟩) ∧
    (∀ e ∈ es, (b.scope options paths).Spells e) ∧
    ∀ s : Scope, (b.scope options paths).names = s.names → s.Titled → s.Reads d.texts es

theorem field_adds {position : Position} {decl : Script.FieldDecl}
    (h : b.field options paths position decl = .ok b') : Adds options paths b b' (.field decl) := by
  obtain ⟨-, -, h⟩ := except_bind_eq_ok.mp h
  obtain ⟨⟨item, numeric⟩, hitem, h⟩ := except_bind_eq_ok.mp h
  obtain ⟨⟨info, declared⟩, hdeclare, h⟩ := except_bind_eq_ok.mp h
  cases h
  obtain ⟨-, hdeclared⟩ := declare_eq_ok hdeclare
  refine ⟨rfl, hdeclared, fun _ h => h, item.exprs, ?_, (fieldDecl_scoped hitem).2.1, ?_⟩
  · rw [LayoutBuilder.exprs, overOpen_append Layout.exprs_append, Layout.exprs, Layout.exprs,
      List.append_nil]
  · exact fun s hnames hs => fieldDecl_reads hnames hs hitem

/-- An opened structure adds its name. -/
theorem opening_adds {position : Position} {name : Option String} {size : Option Script.Size}
    (h : b.opening options paths position name size = .ok b') :
    Adds options paths b b' (.opening name size) := by
  obtain ⟨-, -, h⟩ := except_bind_eq_ok.mp h
  obtain ⟨length, hlength, h⟩ := except_bind_eq_ok.mp h
  obtain ⟨⟨info, declared⟩, hdeclare, h⟩ := except_bind_eq_ok.mp h
  cases h
  obtain ⟨rfl, hdeclared⟩ := declare_eq_ok hdeclare
  refine ⟨rfl, hdeclared, fun outer hinside => ?_, (length.bind Length.expr?).toList, ?_, ?_, ?_⟩
  · unfold Inside at hinside ⊢
    rw [List.map_cons, hinside, Declaration.openBehind, inheritedPaths]
    have hpath := Inside.path hinside
    cases name with
    | none => exact congrArg (· :: inheritedPaths outer) hpath
    | some name => exact congrArg (joinPath · name :: inheritedPaths outer) hpath
  · exact List.append_nil _
  · exact fun e he => arrayLength_spelled hlength e (Option.mem_toList.mp he)
  · exact fun s hnames hs => arrayLength_reads hnames hs hlength

/-- A closed one adds nothing. -/
theorem closing_adds {position : Position} (h : b.closing position = .ok b') :
    Adds options paths b b' .closing := by
  unfold closing at h
  split at h
  · cases h
  · rename_i s opened hopened
    cases h
    refine ⟨rfl, ⟨[], (List.append_nil _).symm, false, rfl⟩, fun outer hinside => ?_, [], ?_, nofun, ?_⟩
    · unfold Inside at hinside ⊢
      rw [hopened] at hinside
      cases outer with
      | nil => cases hinside
      | cons first outer => exact (List.cons.inj hinside).2
    · rw [exprs_closed, hopened]
      exact (List.append_nil _).symm
    · exact fun s _ _ => s.reads_nil

theorem add_adds {position : Position} {d : Declaration}
    (h : b.add options paths position d = .ok b') : Adds options paths b b' d := by
  cases d with
  | field decl => exact field_adds h
  | opening name size => exact opening_adds h
  | closing => exact closing_adds h

theorem token_adds {t : Token} (h : b.token options paths t = .ok b') :
    Adds options paths b b' t.declaration := add_adds (token_eq_ok.mp h)

/-! ## What a run of declarations adds -/

/-- The paths that the builder declares are those that the tokens show. -/
theorem tokens_paths {tokens : List Token} (hinside : b.Inside outer)
    (h : tokens.foldlM (token options paths) b = .ok b') :
    b'.declared.map (·.info.path) =
      b.declared.map (·.info.path) ++ Script.declaredFrom (inheritedPaths outer) tokens := by
  induction tokens generalizing b outer with
  | nil =>
    cases h
    exact (List.append_nil _).symm
  | cons t tokens ih =>
    rw [List.foldlM_cons] at h
    obtain ⟨b₁, ht, h⟩ := except_bind_eq_ok.mp h
    have hadds := token_adds ht
    obtain ⟨new, hdeclared, numeric, rfl⟩ := hadds.declared
    have hinside₁ := hadds.inside outer hinside
    rw [ih hinside₁ h, hdeclared, List.map_append, List.append_assoc, Script.declaredFrom,
      head?_inheritedPaths, hinside.path]
    congr 1
    cases t.declaration with
    | field decl => cases hname : decl.name <;> simp [Declaration.name?, hname, Declaration.openBehind]
    | opening name size => cases name <;> rfl
    | closing => cases outer <;> rfl

/-- Every name declared so far has an index in front of the next one. -/
def Numbered (b : LayoutBuilder) : Prop := ∀ d ∈ b.declared, d.info.index < b.next

theorem Adds.numbered {d : Declaration} (h : Adds options paths b b' d) (hb : b.Numbered) :
    b'.Numbered := by
  obtain ⟨new, hdeclared, numeric, rfl⟩ := h.declared
  intro e he
  rw [hdeclared] at he
  rw [h.next]
  rcases List.mem_append.mp he with he | he
  · exact (hb e he).trans (Nat.lt_succ_self _)
  · obtain ⟨n, -, rfl⟩ := List.mem_map.mp he
    exact Nat.lt_succ_self _

/-- Later names have later indexes. -/
theorem tokens_declared {tokens : List Token} (h : tokens.foldlM (token options paths) b = .ok b') :
    ∃ later, b'.declared = b.declared ++ later ∧ ∀ d ∈ later, b.next ≤ d.info.index := by
  induction tokens generalizing b with
  | nil =>
    cases h
    exact ⟨[], (List.append_nil _).symm, fun d hd => absurd hd List.not_mem_nil⟩
  | cons t tokens ih =>
    rw [List.foldlM_cons] at h
    obtain ⟨b₁, ht, h⟩ := except_bind_eq_ok.mp h
    have hadds := token_adds ht
    obtain ⟨new, hdeclared, numeric, rfl⟩ := hadds.declared
    obtain ⟨later, hlater, hle⟩ := ih h
    refine ⟨_, by rw [hlater, hdeclared, List.append_assoc], fun d hd => ?_⟩
    rcases List.mem_append.mp hd with hd | hd
    · obtain ⟨n, -, rfl⟩ := List.mem_map.mp hd
      exact Nat.le_refl _
    · have hnext := hle d hd
      rw [hadds.next] at hnext
      exact Nat.le_of_succ_le hnext

/-- What is declared so far is what the finished layout declares in front of the next index. -/
theorem declared_so_far {tokens : List Token} (hb : b.Numbered)
    (h : tokens.foldlM (token options paths) b = .ok b') :
    b'.declared.filter (·.info.index < b.next) = b.declared := by
  obtain ⟨later, hdeclared, hle⟩ := tokens_declared h
  have hfront : b.declared.filter (·.info.index < b.next) = b.declared :=
    List.filter_eq_self.mpr fun d hd => decide_eq_true (hb d hd)
  have hbehind : later.filter (·.info.index < b.next) = [] :=
    List.filter_eq_nil_iff.mpr fun d hd => by
      have hnext := hle d hd
      rw [decide_eq_true_eq]
      omega
  rw [hdeclared, List.filter_append, hfront, hbehind, List.append_nil]

/-- The builder looks names up like one that knows only the named structures around. -/
theorem Inside.names_eq (h : b.Inside outer) :
    (b.scope options paths).names =
      (⟨options.externals, paths, outer.reduceOption, b.declared⟩ : Scope).names := by
  have henclosed : ∀ name, (b.scope options paths).enclosed? name =
      (⟨options.externals, paths, outer.reduceOption, b.declared⟩ : Scope).enclosed? name := by
    intro name
    have hscope : (b.scope options paths).enclosing = inheritedPaths outer := h
    unfold Scope.enclosed?
    rw [hscope]
    exact findSome?_inheritedPaths rfl outer
  have hresolve : (b.scope options paths).resolve =
      (⟨options.externals, paths, outer.reduceOption, b.declared⟩ : Scope).resolve := by
    funext name
    unfold Scope.resolve Scope.lookup
    rw [henclosed]
    rfl
  unfold Scope.names
  rw [hresolve]
  rfl

end LayoutBuilder

namespace Script

/-- The references of a declaration reach the targets of its expressions. -/
theorem Declaration.references_reach {externals : Externals} {declared : List Declared} {n : Nat}
    {outer : List (Option String)} {d : Declaration} {es : List Expr}
    (h : (⟨externals, declared.map (·.info.path), outer.reduceOption,
      declared.filter (·.info.index < n)⟩ : Scope).Reads d.texts es) :
    List.Forall₂ (Reference.Reaches externals declared) (d.references n outer)
      ((es.map (⟨n, ·⟩)).flatMap AttachedExpr.targets) := by
  have htargets : (es.map (⟨n, ·⟩)).flatMap AttachedExpr.targets =
      (es.flatMap Expr.targets).map (n, ·) := by
    rw [List.flatMap_map, List.map_flatMap]
    rfl
  rw [htargets, Declaration.references, List.forall₂_map_left_iff, List.forall₂_map_right_iff]
  exact List.Forall₂.imp (fun _ _ hmeans => ⟨rfl, hmeans⟩) h

end Script

namespace LayoutBuilder

variable {options : CompileOptions} {paths : List String} {b b' : LayoutBuilder}
  {outer : List (Option String)}

/-- From any place of a script on, the references reach the targets of what is added. -/
theorem tokens_reach {tokens : List Token} (hinside : b.Inside outer) (htitles : Titles outer)
    (hb : b.Numbered) (hnamed : ∀ t ∈ tokens, t.declaration.Named (· ≠ ""))
    (h : tokens.foldlM (token options paths) b = .ok b')
    (hpaths : paths = b'.declared.map (·.info.path)) :
    ∃ added, exprs b'.opened b'.body = exprs b.opened b.body ++ added ∧
      List.Forall₂ (Script.Reference.Reaches options.externals b'.declared)
        (referencesFrom b.next outer tokens) (added.flatMap AttachedExpr.targets) := by
  induction tokens generalizing b outer with
  | nil =>
    cases h
    exact ⟨[], (List.append_nil _).symm, .nil⟩
  | cons t tokens ih =>
    obtain ⟨hname, hnamed⟩ := List.forall_mem_cons.mp hnamed
    have hdeclared := declared_so_far hb h
    rw [List.foldlM_cons] at h
    obtain ⟨b₁, ht, h⟩ := except_bind_eq_ok.mp h
    have hadds := token_adds ht
    obtain ⟨es, hes, -, hreads⟩ := hadds.exprs
    obtain ⟨added, hadded, hreach⟩ := ih (hadds.inside outer hinside) (htitles.openBehind hname)
      (hadds.numbered hb) hnamed h
    have hfirst := hreads _ hinside.names_eq htitles
    rw [hpaths, ← hdeclared] at hfirst
    refine ⟨es.map (⟨b.next, ·⟩) ++ added, by rw [hadded, hes, List.append_assoc], ?_⟩
    rw [referencesFrom, List.flatMap_append, ← hadds.next]
    exact List.rel_append (Script.Declaration.references_reach hfirst) hreach

end LayoutBuilder

/-- Once no structure is open, what is declared is declared in the layout. -/
theorem LayoutBuilder.declared_of_tokens {options : CompileOptions} {paths : List String}
    {tokens : List Token} {b : LayoutBuilder}
    (h : tokens.foldlM (token options paths) empty = .ok b) (hopened : b.opened = []) :
    b.declared = b.body.declared := by
  have hwell := scopedWell_tokens (scopedWell_empty options.customs) h
  rw [hwell.declared, hopened]
  rfl

/-- Every reference of a script that compiles has its target in the layout, at the same place of the
document, and reaches it: the target is what the name means among what is declared in front of the
reference, inside the named structures around it, and among all the paths of the script. -/
theorem compile_references_reach {options : CompileOptions} {source : String} {schema : Schema}
    (h : compile options source = .ok schema) :
    ∃ tokens, Script.tokenize source = .ok tokens ∧
      List.Forall₂ (Script.Reference.Reaches options.externals schema.layout.declared)
        (Script.references tokens) schema.layout.targets := by
  obtain ⟨tokens, htokens, h⟩ := except_bind_eq_ok.mp h
  obtain ⟨layout, hlayout, h⟩ := except_bind_eq_ok.mp h
  cases h
  obtain ⟨b, hb, hfinish⟩ := except_bind_eq_ok.mp hlayout
  obtain ⟨hopened, rfl⟩ := LayoutBuilder.finish_eq_ok hfinish
  have hdeclared := LayoutBuilder.declared_of_tokens hb hopened
  have hpaths : Script.declaredPaths tokens = b.declared.map (·.info.path) :=
    (LayoutBuilder.tokens_paths LayoutBuilder.inside_empty hb).symm
  obtain ⟨added, hadded, hreach⟩ := LayoutBuilder.tokens_reach LayoutBuilder.inside_empty
    (fun path hpath => absurd hpath List.not_mem_nil) (fun d hd => absurd hd List.not_mem_nil)
    (Script.tokenize_names_ne htokens) hb hpaths
  rw [hopened] at hadded
  have hexprs : b.body.exprs = added := hadded
  refine ⟨tokens, htokens, ?_⟩
  rw [Layout.targets, hexprs, ← hdeclared]
  exact hreach

/-- A script with a name chosen in the structure around it, one chosen outside, one chosen by the end
of a path, and two externals. -/
def choicesSource : String :=
  "ubyte n; s \x7b ubyte n; \x7b ubyte q; byte [n] a; \x7d \x7d byte [n + q + m + $q] b;"

theorem targets_choices : (compile {} choicesSource).map (·.layout.targets) =
    .ok [(5, .field ⟨"s.n", "n", 2⟩), (8, .field ⟨"n", "n", 0⟩), (8, .field ⟨"s.q", "q", 4⟩),
      (8, .external "m"), (8, .external "q")] := by cbv

theorem references_choices : (Script.tokenize choicesSource).map Script.references =
    .ok [⟨5, ["s"], ⟨"n", false⟩⟩, ⟨8, [], ⟨"n", false⟩⟩, ⟨8, [], ⟨"q", false⟩⟩,
      ⟨8, [], ⟨"m", false⟩⟩, ⟨8, [], ⟨"q", true⟩⟩] := by cbv

theorem references_reach_choices :
    ∃ schema tokens, compile {} choicesSource = .ok schema ∧
      Script.tokenize choicesSource = .ok tokens ∧
      Script.references tokens = [⟨5, ["s"], ⟨"n", false⟩⟩, ⟨8, [], ⟨"n", false⟩⟩,
        ⟨8, [], ⟨"q", false⟩⟩, ⟨8, [], ⟨"m", false⟩⟩, ⟨8, [], ⟨"q", true⟩⟩] ∧
      schema.layout.targets = [(5, .field ⟨"s.n", "n", 2⟩), (8, .field ⟨"n", "n", 0⟩),
        (8, .field ⟨"s.q", "q", 4⟩), (8, .external "m"), (8, .external "q")] ∧
      List.Forall₂ (Script.Reference.Reaches .any schema.layout.declared)
        (Script.references tokens) schema.layout.targets := by
  have htargets := targets_choices
  have hreferences := references_choices
  cases hcompile : compile {} choicesSource with
  | error e =>
    rw [hcompile] at htargets
    cases htargets
  | ok schema =>
    obtain ⟨tokens, htokens, hreach⟩ := compile_references_reach hcompile
    rw [hcompile] at htargets
    rw [htokens] at hreferences
    exact ⟨schema, tokens, rfl, htokens, Except.ok.inj hreferences, Except.ok.inj htargets, hreach⟩

end RecordLayout
