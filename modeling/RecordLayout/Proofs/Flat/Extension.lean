import RecordLayout.Proofs.Flat.Flattening
import RecordLayout.Proofs.Layout.Shape

/-!
# Later declarations

Names are looked up among all the paths that a script declares, so a declaration can be the reason
that a name far in front of it is refused. That is all it can do. A name that two scripts with the
same declarations so far both accept stands for the same in both, so the builder comes to the same
for the tokens they share. What it builds at the top level only grows behind, and so does the block.
-/

namespace RecordLayout

/-- If there are two results, they are the same. -/
def Coincide {ε α : Type} (x y : Except ε α) : Prop :=
  ∀ a b, x = .ok a → y = .ok b → a = b

namespace Coincide

variable {ε α β : Type}

theorem refl (x : Except ε α) : Coincide x x := by
  rintro a b rfl hb
  cases hb
  rfl

theorem error_left (e : ε) (y : Except ε α) : Coincide (.error e) y := fun _ _ h => by cases h

theorem error_right (x : Except ε α) (e : ε) : Coincide x (.error e) := fun _ _ _ h => by cases h

/-- Two computations that go on in the same way from results that are the same. -/
theorem bind {x y : Except ε α} {f g : α → Except ε β} (hxy : Coincide x y)
    (hfg : ∀ a, Coincide (f a) (g a)) : Coincide (x >>= f) (y >>= g) := by
  intro c d hc hd
  obtain ⟨a, ha, hc⟩ := except_bind_eq_ok.mp hc
  obtain ⟨b, hb, hd⟩ := except_bind_eq_ok.mp hd
  obtain rfl := hxy a b ha hb
  exact hfg a c d hc hd

theorem map {x y : Except ε α} (f : α → β) (hxy : Coincide x y) :
    Coincide (f <$> x) (f <$> y) := by
  rw [map_eq_pure_bind, map_eq_pure_bind]
  exact hxy.bind fun _ => refl _

theorem mapError {δ : Type} {x y : Except ε α} (f : ε → δ) (hxy : Coincide x y) :
    Coincide (x.mapError f) (y.mapError f) := by
  cases x with
  | error e => exact error_left _ _
  | ok a =>
    cases y with
    | error e => exact error_right _ _
    | ok b =>
      rintro _ _ ⟨⟩ ⟨⟩
      exact hxy a b rfl rfl

/-- A loop whose steps have the same results has the same result. -/
theorem foldlM {x y : β → α → Except ε β} (hxy : ∀ b a, Coincide (x b a) (y b a)) (as : List α)
    (b : β) : Coincide (as.foldlM x b) (as.foldlM y b) := by
  induction as generalizing b with
  | nil => exact refl _
  | cons a as ih =>
    rw [List.foldlM_cons, List.foldlM_cons]
    exact (hxy b a).bind ih

end Coincide

/-! ## Names that stand for the same -/

/-- A name, marked or not, stands for the same in both. -/
structure Names.Coincide (names names' : Names) : Prop where
  field : ∀ name, RecordLayout.Coincide (names.field name) (names'.field name)
  external : ∀ name, RecordLayout.Coincide (names.external name) (names'.external name)

/-- The paths that a script declares somewhere decide only whether a name is refused. -/
theorem Scope.resolve_coincide (s : Scope) (paths : List String) (name : String) :
    Coincide (s.resolve name) ({ s with paths := paths }.resolve name) := by
  have hlookup : ({ s with paths := paths } : Scope).lookup name = s.lookup name := rfl
  have hexternal : ({ s with paths := paths } : Scope).external name = s.external name := rfl
  unfold resolve
  rw [hlookup, hexternal]
  apply (Coincide.refl _).bind
  intro found
  cases found with
  | some d => exact .refl _
  | none =>
    dsimp only
    split
    · exact .error_left _ _
    · split
      · exact .error_right _ _
      · exact .refl _

/-- More names from the outside only add answers: two lookups that find something find the same. -/
theorem Scope.names_coincide (s : Scope) (paths : List String) :
    s.names.Coincide ({ s with paths := paths } : Scope).names :=
  ⟨s.resolve_coincide paths, fun _ => .refl _⟩

section

variable {names names' : Names} (h : names.Coincide names')
include h

/-- A term that two scopes resolve is resolved to one expression. -/
theorem Term.resolve_coincide (t : Term) : Coincide (t.resolve names) (t.resolve names') := by
  induction t with
  | decimal | hex | counter => exact .refl _
  | external name => exact h.external name
  | name name => exact h.field name
  | plus t ih | group t ih => exact ih
  | unary op t ih => exact ih.bind fun _ => .refl _
  | binary op l r ihl ihr => exact ihl.bind fun _ => ihr.bind fun _ => .refl _

/-- A text that two scopes accept is compiled to one expression. -/
theorem Expr.ofText_coincide (text : String) :
    Coincide (Expr.ofText names text) (Expr.ofText names' text) := by
  unfold Expr.ofText
  split
  · exact Term.resolve_coincide h _
  · exact .refl _

end

/-! ## Declarations of the same -/

namespace LayoutBuilder

section

variable {scope scope' : Scope} (h : scope.names.Coincide scope'.names)
include h

theorem amount_coincide (kind : Kind) (extra : Script.Extra) :
    Coincide (amount scope kind extra) (amount scope' kind extra) := by
  cases extra with
  | number n => exact .refl _
  | expression text => exact (Expr.ofText_coincide h text).bind fun _ => .refl _

theorem amountOrOne_coincide (kind : Kind) (extra : Option Script.Extra) :
    Coincide (amountOrOne scope kind extra) (amountOrOne scope' kind extra) := by
  cases extra with
  | none => exact .refl _
  | some extra => exact amount_coincide h kind extra

theorem computedAmount_coincide (extra : Option Script.Extra) :
    Coincide (computedAmount scope extra) (computedAmount scope' extra) := by
  unfold computedAmount
  split
  · exact .refl _
  · exact .refl _
  · exact (Expr.ofText_coincide h _).map _

theorem arrayLength_coincide (repeated : Bool) (size : Option Script.Size) :
    Coincide (arrayLength scope repeated size) (arrayLength scope' repeated size) := by
  unfold arrayLength
  split
  · exact .refl _
  · exact .refl _
  · exact (Expr.ofText_coincide h _).bind fun _ => .refl _

/-- The type of an element has no more than one meaning, whatever names from the outside there are.
-/
theorem elementType_coincide (options : CompileOptions) (decl : Script.FieldDecl)
    (type : Option BuiltIn) :
    Coincide (elementType scope options decl type) (elementType scope' options decl type) := by
  unfold elementType
  split
  · exact .refl _
  · exact (amountOrOne_coincide h _ _).map _
  · exact .refl _
  · apply (Coincide.refl _).bind
    intro use
    split
    · exact .refl _
    · exact (amount_coincide h _ _).map _

theorem fieldDecl_coincide (options : CompileOptions) (repeated : Bool)
    (decl : Script.FieldDecl) :
    Coincide (fieldDecl scope options repeated decl) (fieldDecl scope' options repeated decl) := by
  unfold fieldDecl
  split
  · exact (Coincide.refl _).bind fun _ => (amountOrOne_coincide h _ _).bind fun _ => .refl _
  · exact (Coincide.refl _).bind fun _ => (amountOrOne_coincide h _ _).bind fun _ => .refl _
  · exact .refl _
  · exact (Coincide.refl _).bind fun _ => (computedAmount_coincide h _).bind fun _ => .refl _
  · exact (elementType_coincide h options decl _).bind fun _ =>
      (arrayLength_coincide h repeated _).bind fun _ => .refl _

end

variable (options : CompileOptions) (paths paths' : List String)

/-- Scripts that declare different paths come to the same builder, if both accept the token. -/
theorem token_coincide (b : LayoutBuilder) (t : Script.Token) :
    Coincide (b.token options paths t) (b.token options paths' t) := by
  have hnames := (b.scope options paths).names_coincide paths'
  apply Coincide.mapError
  cases t.declaration with
  | field decl =>
    exact (Coincide.refl _).bind fun _ =>
      (fieldDecl_coincide hnames options b.repeated decl).bind fun _ => .refl _
  | opening name size =>
    exact (Coincide.refl _).bind fun _ =>
      (arrayLength_coincide hnames b.repeated size).bind fun _ => .refl _
  | closing => exact .refl _

/-! ## What is built at the top level -/

/-- The layout of what stands in front of the outermost open structure. -/
def outermost : List OpenStruct → Layout → Layout
  | [], body => body
  | s :: opened, _ => outermost opened s.before

/-- The declarations at the top level are in front of those that come behind. -/
theorem outermost_append (opened : List OpenStruct) (body l : Layout) :
    ∃ more, outermost opened (body ++ l) = outermost opened body ++ more := by
  cases opened with
  | nil => exact ⟨l, rfl⟩
  | cons s opened => exact ⟨.done, (Layout.append_done _).symm⟩

variable {options paths} {b b' : LayoutBuilder}

/-- A declaration leaves what is built at the top level and adds to it. -/
theorem outermost_add {position : Position} {declaration : Script.Declaration}
    (h : b.add options paths position declaration = .ok b') :
    ∃ more, outermost b'.opened b'.body = outermost b.opened b.body ++ more := by
  cases declaration with
  | field decl =>
    obtain ⟨-, -, h⟩ := except_bind_eq_ok.mp h
    obtain ⟨⟨item, numeric⟩, -, h⟩ := except_bind_eq_ok.mp h
    obtain ⟨⟨info, declared⟩, -, h⟩ := except_bind_eq_ok.mp h
    cases h
    exact outermost_append b.opened b.body _
  | opening name size =>
    obtain ⟨-, -, h⟩ := except_bind_eq_ok.mp h
    obtain ⟨length, -, h⟩ := except_bind_eq_ok.mp h
    obtain ⟨⟨info, declared⟩, -, h⟩ := except_bind_eq_ok.mp h
    cases h
    exact ⟨.done, (Layout.append_done _).symm⟩
  | closing =>
    simp only [add, closing] at h
    split at h
    · cases h
    · rename_i s opened hopened
      cases h
      rw [hopened]
      exact outermost_append opened s.before _

/-- A script builds its top level behind what stands there. -/
theorem outermost_tokens {tokens : List Script.Token}
    (h : tokens.foldlM (token options paths) b = .ok b') :
    ∃ more, outermost b'.opened b'.body = outermost b.opened b.body ++ more := by
  induction tokens generalizing b with
  | nil =>
    cases h
    exact ⟨.done, (Layout.append_done _).symm⟩
  | cons t tokens ih =>
    rw [List.foldlM_cons] at h
    obtain ⟨b₁, ht, h⟩ := except_bind_eq_ok.mp h
    obtain ⟨first, hfirst⟩ := outermost_add (token_eq_ok.mp ht)
    obtain ⟨more, hmore⟩ := ih h
    exact ⟨first ++ more, by rw [hmore, hfirst, Layout.append_assoc]⟩

end LayoutBuilder

/-- More tokens behind those of a layout only add declarations behind its own. -/
theorem Layout.ofTokens_append {options : CompileOptions} {ts us : List Script.Token}
    {l l' : Layout} (h : Layout.ofTokens options ts = .ok l)
    (h' : Layout.ofTokens options (ts ++ us) = .ok l') : ∃ more, l' = l ++ more := by
  obtain ⟨b, hb, hfinish⟩ := except_bind_eq_ok.mp h
  obtain ⟨b', hb', hfinish'⟩ := except_bind_eq_ok.mp h'
  obtain ⟨hopened, rfl⟩ := LayoutBuilder.finish_eq_ok hfinish
  obtain ⟨hopened', rfl⟩ := LayoutBuilder.finish_eq_ok hfinish'
  rw [List.foldlM_append] at hb'
  obtain ⟨b₁, hb₁, hb'⟩ := except_bind_eq_ok.mp hb'
  have hsame : b = b₁ := Coincide.foldlM (LayoutBuilder.token_coincide options _ _) ts _ b b₁ hb hb₁
  obtain ⟨more, hmore⟩ := LayoutBuilder.outermost_tokens hb'
  rw [← hsame, hopened, hopened'] at hmore
  exact ⟨more, hmore⟩

/-! ## Blocks that grow -/

/-- The tables of one block are the fronts of those of another. -/
structure Block.Begins (front whole : Block) : Prop where
  descriptors : front.descriptors <+: whole.descriptors
  names : front.names <+: whole.names
  evaluators : front.evaluators <+: whole.evaluators
  customs : front.customs <+: whole.customs
  handlers : front.handlers = whole.handlers

/-- More declarations behind a layout leave the entries of its block, and the numbers in them. -/
theorem Layout.begins_append {customs : List CustomType} {l : Layout}
    (hl : l.Scoped customs 0 []) (more : Layout) :
    (l.block customs).Begins ((l ++ more).block customs) where
  descriptors := by
    simp only [block, descriptors, listFrom_append]
    exact List.prefix_append _ _
  names := by
    simp only [block, infos_append]
    exact List.prefix_append _ _
  evaluators := by
    have hknown : ∀ a ∈ l.exprs, a.numbered (l.infos ++ more.infos) = a.numbered l.infos := by
      intro a ha
      apply AttachedExpr.numbered_append
      intro info hinfo
      rw [infos_eq_declared]
      exact List.mem_map_of_mem (f := Declared.info) (hl.knows a ha info hinfo)
    simp only [block, exprs_append, infos_append, List.map_append]
    rw [List.map_congr_left hknown]
    exact List.prefix_append _ _
  customs := by
    simp only [block, customUses_append, List.map_append]
    exact List.prefix_append _ _
  handlers := rfl

/-- Later declarations never change earlier ones: if a script compiles and compiles with more tokens
behind, the block of the first is the front of the block of the second. Its entries, names,
expressions with the fields and externals they refer to, and uses of custom types are all kept. -/
theorem Layout.block_begins_of_more {options : CompileOptions} {ts us : List Script.Token}
    {l l' : Layout} (h : Layout.ofTokens options ts = .ok l)
    (h' : Layout.ofTokens options (ts ++ us) = .ok l') :
    (l.block options.customs).Begins (l'.block options.customs) := by
  obtain ⟨more, rfl⟩ := Layout.ofTokens_append h h'
  exact Layout.begins_append (Layout.ofTokens_scoped h) more

/-- A count, and in a structure an array of as many bytes and of a length from outside. -/
def countedTokens : List Script.Token := [
  ⟨.field ⟨none, "ubyte", none, none, some "n"⟩, "ubyte n;", ⟨0, 1, 1⟩⟩,
  ⟨.opening (some "s") none, "s \x7b", ⟨9, 2, 1⟩⟩,
  ⟨.field ⟨none, "byte", none, some (.expression "n + m"), some "a"⟩, "byte [n + m] a;", ⟨13, 2, 5⟩⟩,
  ⟨.closing, "\x7d", ⟨29, 2, 21⟩⟩]

/-- Another name ending in the one that the array uses, and another use of it. -/
def laterTokens : List Script.Token := [
  ⟨.opening (some "t") none, "t \x7b", ⟨31, 3, 1⟩⟩,
  ⟨.field ⟨none, "ubyte", none, none, some "n"⟩, "ubyte n;", ⟨35, 3, 5⟩⟩,
  ⟨.field ⟨none, "byte", none, some (.expression "n"), some "b"⟩, "byte [n] b;", ⟨44, 3, 14⟩⟩,
  ⟨.closing, "\x7d", ⟨56, 3, 26⟩⟩]

/-- The expressions of a script that goes on are behind those of its beginning, external ones
included. -/
theorem Layout.block_begins_of_counted :
    ∃ l l', Layout.ofTokens {} countedTokens = .ok l ∧
      Layout.ofTokens {} (countedTokens ++ laterTokens) = .ok l' ∧
      l.exprs = [⟨2, .binary .add (.field ⟨"n", "n", 0⟩) (.external "m")⟩] ∧
      l'.exprs = l.exprs ++ [⟨6, .field ⟨"t.n", "n", 5⟩⟩] ∧
      (l.block []).Begins (l'.block []) := by
  have h : Layout.ofTokens {} countedTokens = .ok
      (.item ⟨0, some ⟨"n", "n", 0⟩, .big, ⟨0, 1, 1⟩⟩ (.value (.fixed .ubyte) none)
        (.group ⟨1, some ⟨"s", "s", 1⟩, .big, ⟨9, 2, 1⟩⟩ none
          (.item ⟨2, some ⟨"s.a", "a", 2⟩, .big, ⟨13, 2, 5⟩⟩ (.value (.fixed .byte)
            (some (.computed (.binary .add (.field ⟨"n", "n", 0⟩) (.external "m"))))) .done)
          ⟨29, 2, 21⟩ .done)) := by cbv
  have h' : Layout.ofTokens {} (countedTokens ++ laterTokens) = .ok
      (.item ⟨0, some ⟨"n", "n", 0⟩, .big, ⟨0, 1, 1⟩⟩ (.value (.fixed .ubyte) none)
        (.group ⟨1, some ⟨"s", "s", 1⟩, .big, ⟨9, 2, 1⟩⟩ none
          (.item ⟨2, some ⟨"s.a", "a", 2⟩, .big, ⟨13, 2, 5⟩⟩ (.value (.fixed .byte)
            (some (.computed (.binary .add (.field ⟨"n", "n", 0⟩) (.external "m"))))) .done)
          ⟨29, 2, 21⟩
        (.group ⟨4, some ⟨"t", "t", 4⟩, .big, ⟨31, 3, 1⟩⟩ none
          (.item ⟨5, some ⟨"t.n", "n", 5⟩, .big, ⟨35, 3, 5⟩⟩ (.value (.fixed .ubyte) none)
            (.item ⟨6, some ⟨"t.b", "b", 6⟩, .big, ⟨44, 3, 14⟩⟩ (.value (.fixed .byte)
              (some (.computed (.field ⟨"t.n", "n", 5⟩)))) .done))
          ⟨56, 3, 26⟩ .done))) := by cbv
  exact ⟨_, _, h, h', rfl, rfl, Layout.block_begins_of_more h h'⟩

end RecordLayout
