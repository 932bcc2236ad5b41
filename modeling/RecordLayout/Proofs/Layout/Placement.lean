import RecordLayout.Proofs.Layout.Shape
import RecordLayout.Proofs.Table.Braces

/-!
# Where an unbounded array may stand

What is compiled keeps the rule for unbounded arrays, and the rule is all that the unboundedness of
an array asks of its place: a script that keeps it and compiles with a length in place of every
unbounded array also compiles as it is (`Layout.unbounded_exactly_where_placed`).

The builder keeps a single note of an unbounded array that is complete, and which of the open
structures repeat. `Follows` says what these have to do with the marks read so far, and `Twin` that
builders with and without lengths otherwise agree on all that is asked of them.
-/

namespace RecordLayout

namespace LayoutBuilder

/-! ## What the builder knows of the marks -/

/-- The marks in front of the innermost structure that is open, with its opening brace. -/
def outerMarks : List OpenStruct → List Mark
  | [] => []
  | s :: rest => outerMarks rest ++ s.before.marks ++ [.opening (.ofLength s.length)]

/-- The builder has come this far. -/
structure Follows (marks : List Mark) (b : LayoutBuilder) : Prop where
  well : WellBuilt b
  next : b.next = marks.length
  opened : b.opened.map (·.head.index) = Mark.opened marks
  extent : ∀ s ∈ b.opened, marks[s.head.index]? = some (.opening (.ofLength s.length))
  /-- The note of an unbounded array is there exactly when there is one that is complete. -/
  ended : b.ended.isSome = true ↔ Mark.HasEnded marks
  built : outerMarks b.opened ++ b.body.marks = marks
  placed : Mark.Placed marks

theorem follows_empty : Follows [] .empty := by
  have hnone : ∀ i, ¬ Mark.UnboundedAt [] i := fun i hi => absurd hi.lt (Nat.not_lt_zero i)
  refine ⟨wellBuilt_empty, rfl, rfl, fun s hs => absurd hs List.not_mem_nil, ?_, rfl, ?_⟩
  · constructor
    · intro h
      cases h
    · rintro ⟨i, hi, -⟩
      exact absurd hi (hnone i)
  · exact ⟨fun i _ hi => absurd hi (hnone i), fun i _ _ hi => absurd hi (hnone i),
      fun i _ _ hi => absurd hi (hnone i)⟩

/-- A length is unbounded just where its size is. -/
theorem arrayLength_extent {scope : Scope} {repeated : Bool} {size : Option Script.Size}
    {length : Option Length} (h : arrayLength scope repeated size = .ok length) :
    Extent.ofLength length = .ofSize size := by
  unfold arrayLength at h
  split at h
  · cases h
    rfl
  · split at h
    · cases h
    · cases h
      rfl
  · obtain ⟨e, -, h⟩ := except_bind_eq_ok.mp h
    split at h
    · split at h
      · cases h
        rfl
      · cases h
    · cases h
      rfl

/-- The length of a field is unbounded just where its size is. -/
theorem fieldDecl_extent {scope : Scope} {options : CompileOptions} {repeated : Bool}
    {decl : Script.FieldDecl} {item : Decl} {numeric : Bool}
    (h : fieldDecl scope options repeated decl = .ok (item, numeric)) :
    Extent.ofLength item.length = .ofSize decl.size := by
  unfold fieldDecl at h
  split at h
  · obtain ⟨⟨⟩, hcheck, h⟩ := except_bind_eq_ok.mp h
    obtain ⟨n, -, h⟩ := except_bind_eq_ok.mp h
    cases h
    rw [size_of_checkDirective hcheck]
    rfl
  · obtain ⟨⟨⟩, hcheck, h⟩ := except_bind_eq_ok.mp h
    obtain ⟨n, -, h⟩ := except_bind_eq_ok.mp h
    cases h
    rw [size_of_checkDirective hcheck]
    rfl
  · obtain ⟨⟨⟩, hcheck, h⟩ := except_bind_eq_ok.mp h
    obtain ⟨-, -, h⟩ := except_bind_eq_ok.mp h
    cases h
    rw [size_of_checkDirective hcheck]
    rfl
  · obtain ⟨⟨⟩, hcheck, h⟩ := except_bind_eq_ok.mp h
    obtain ⟨e, -, h⟩ := except_bind_eq_ok.mp h
    cases h
    rw [size_of_checkComputed hcheck]
    rfl
  · obtain ⟨element, -, h⟩ := except_bind_eq_ok.mp h
    obtain ⟨length, hlength, h⟩ := except_bind_eq_ok.mp h
    cases h
    exact arrayLength_extent hlength

/-- Some open structure is an array exactly if the next declaration is repeated. -/
theorem repeats_iff {opened : List OpenStruct} (h : OpenedWell opened) :
    repeats opened = true ↔ ∃ s ∈ opened, s.length.isSome = true := by
  induction opened with
  | nil => simp [repeats]
  | cons s opened ih =>
    obtain ⟨-, -, hrepeated, -, hopened⟩ := h
    have hhead : repeats (s :: opened) = s.repeated := rfl
    rw [hhead, hrepeated, Bool.or_eq_true, ih hopened]
    simp

variable {options : CompileOptions} {paths : List String} {b b' : LayoutBuilder}
  {marks : List Mark} {position : Position}

theorem checkEnded_eq_ok : b.checkEnded = .ok () ↔ b.ended = none := by
  unfold checkEnded
  cases b.ended <;> simp

/-- The builder tells from its note and from the structures that are open whether the rule lets a mark
come next. -/
theorem Follows.allows_iff {m : Mark} (hb : Follows marks b) :
    Mark.Allows marks m ↔
      (m ≠ .closing → b.checkEnded = .ok ()) ∧ (m.extent = .unbounded → b.repeated = false) := by
  have hrepeats := repeats_iff hb.well.opened
  constructor
  · intro h
    refine ⟨fun hm => ?_, fun hm => ?_⟩
    · rw [checkEnded_eq_ok, ← Option.not_isSome_iff_eq_none, hb.ended]
      exact fun hlast => hm (h.last hlast)
    · rw [Bool.eq_false_iff]
      intro hrepeated
      obtain ⟨s, hs, hlength⟩ := hrepeats.mp hrepeated
      have hopen : s.head.index ∈ Mark.opened marks := hb.opened ▸ List.mem_map_of_mem hs
      have hsingle := h.alone hm _ hopen _ (hb.extent s hs)
      rw [Mark.extent, Extent.ofLength_eq_single] at hsingle
      rw [hsingle] at hlength
      cases hlength
  · rintro ⟨hended, hrepeated⟩
    refine ⟨fun hlast => ?_, fun hm k hk outer houter => ?_⟩
    · by_contra hm
      have hsome := hb.ended.mpr hlast
      rw [checkEnded_eq_ok.mp (hended hm)] at hsome
      cases hsome
    · rw [← hb.opened] at hk
      obtain ⟨s, hs, rfl⟩ := List.mem_map.mp hk
      rw [hb.extent s hs] at houter
      cases houter
      rw [Mark.extent, Extent.ofLength_eq_single, ← Option.not_isSome_iff_eq_none]
      intro hlength
      exact Bool.eq_false_iff.mp (hrepeated hm) (hrepeats.mpr ⟨s, hs, hlength⟩)

/-- A field leaves its mark behind those that are followed. -/
theorem Follows.field {decl : Script.FieldDecl} (hb : Follows marks b)
    (h : b.field options paths position decl = .ok b') :
    Follows (marks ++ [.leaf (.ofSize decl.size)]) b' := by
  have hwell := wellBuilt_field hb.well h
  obtain ⟨⟨⟩, hcheck, h⟩ := except_bind_eq_ok.mp h
  obtain ⟨⟨item, numeric⟩, hitem, h⟩ := except_bind_eq_ok.mp h
  obtain ⟨⟨info, declared⟩, -, h⟩ := except_bind_eq_ok.mp h
  cases h
  have hextent := fieldDecl_extent hitem
  have hallows : Mark.Allows marks (.leaf (.ofSize decl.size)) := by
    refine hb.allows_iff.mpr ⟨fun _ => hcheck, fun hm => Bool.eq_false_iff.mpr fun hrepeated => ?_⟩
    refine fieldDecl_repeated hitem hrepeated ?_
    rw [← Extent.ofLength_eq_unbounded, hextent]
    exact hm
  refine ⟨hwell, ?_, ?_, fun s hs => ?_, ?_, ?_, hb.placed.concat hallows⟩
  · rw [List.length_append, List.length_singleton, ← hb.next]
  · rw [Mark.opened_concat]
    exact hb.opened
  · have hopen := hb.extent s hs
    rwa [List.getElem?_append_left (List.getElem?_eq_some_iff.mp hopen).1]
  · rw [Mark.hasEnded_leaf, ← hb.ended, checkEnded_eq_ok.mp hcheck, ← hextent,
      Extent.ofLength_eq_unbounded]
    by_cases hunbounded : item.length = some .unbounded <;> simp [hunbounded]
  · rw [Layout.marks_append, ← List.append_assoc, hb.built, ← hextent]
    rfl

/-- An opening brace leaves its mark, and is open behind it. -/
theorem Follows.opening {name : Option String} {size : Option Script.Size} (hb : Follows marks b)
    (h : b.opening options paths position name size = .ok b') :
    Follows (marks ++ [.opening (.ofSize size)]) b' := by
  have hwell := wellBuilt_opening hb.well h
  obtain ⟨⟨⟩, hcheck, h⟩ := except_bind_eq_ok.mp h
  obtain ⟨length, hlength, h⟩ := except_bind_eq_ok.mp h
  obtain ⟨⟨info, declared⟩, -, h⟩ := except_bind_eq_ok.mp h
  cases h
  have hextent := arrayLength_extent hlength
  have hallows : Mark.Allows marks (.opening (.ofSize size)) := by
    refine hb.allows_iff.mpr ⟨fun _ => hcheck, fun hm => Bool.eq_false_iff.mpr fun hrepeated => ?_⟩
    refine arrayLength_repeated hlength hrepeated ?_
    rw [← Extent.ofLength_eq_unbounded, hextent]
    exact hm
  refine ⟨hwell, ?_, ?_, fun s hs => ?_, ?_, ?_, hb.placed.concat hallows⟩
  · rw [List.length_append, List.length_singleton, ← hb.next]
  · rw [Mark.opened_concat, ← hb.opened, ← hb.next]
    rfl
  · rcases List.mem_cons.mp hs with rfl | hs
    · rw [hb.next, List.getElem?_concat_length, ← hextent]
    · have hopen := hb.extent s hs
      rwa [List.getElem?_append_left (List.getElem?_eq_some_iff.mp hopen).1]
  · rw [Mark.hasEnded_opening, ← hb.ended, checkEnded_eq_ok.mp hcheck]
  · rw [outerMarks, hb.built, ← hextent]
    exact List.append_nil _

/-- A closing brace leaves its mark, and the end is noted with it if its structure is unbounded. -/
theorem Follows.closing (hb : Follows marks b) (h : b.closing position = .ok b') :
    Follows (marks ++ [.closing]) b' := by
  have hwell := wellBuilt_closing hb.well h
  unfold LayoutBuilder.closing at h
  cases hopened : b.opened with
  | nil =>
    rw [hopened] at h
    cases h
  | cons s opened =>
    rw [hopened] at h
    cases h
    have hallows : Mark.Allows marks .closing :=
      hb.allows_iff.mpr ⟨fun hm => absurd rfl hm, fun hm => by cases hm⟩
    have hindex := hb.opened
    rw [hopened, List.map_cons] at hindex
    have hbuilt := hb.built
    rw [hopened, outerMarks] at hbuilt
    refine ⟨hwell, ?_, ?_, fun s' hs' => ?_, ?_, ?_, hb.placed.concat hallows⟩
    · rw [List.length_append, List.length_singleton, ← hb.next]
    · rw [Mark.opened_concat, ← hindex]
      rfl
    · have hopen := hb.extent s' (hopened ▸ List.mem_cons_of_mem s hs')
      rwa [List.getElem?_append_left (List.getElem?_eq_some_iff.mp hopen).1]
    · have hunbounded : Mark.UnboundedAt marks s.head.index ↔ s.length = some .unbounded := by
        rw [Mark.UnboundedAt, hb.extent s (hopened ▸ List.mem_cons_self),
          ← Extent.ofLength_eq_unbounded]
        simp [Mark.extent]
      rw [Mark.hasEnded_closing hindex.symm, ← hb.ended, hunbounded]
      by_cases hlength : s.length = some .unbounded <;> simp [hlength]
    · rw [Layout.marks_append, ← hbuilt]
      simp [Layout.marks]

theorem Follows.add {d : Script.Declaration} (hb : Follows marks b)
    (h : b.add options paths position d = .ok b') : Follows (marks ++ [d.mark]) b' := by
  cases d with
  | field decl => exact hb.field h
  | opening name size => exact hb.opening h
  | closing => exact hb.closing h

/-- A script leaves the marks of its tokens, by induction over them. -/
theorem Follows.tokens {tokens : List Script.Token} (hb : Follows marks b)
    (h : tokens.foldlM (token options paths) b = .ok b') :
    Follows (marks ++ tokens.map Script.Token.mark) b' := by
  induction tokens generalizing marks b with
  | nil =>
    cases h
    rwa [List.map_nil, List.append_nil]
  | cons t tokens ih =>
    rw [List.foldlM_cons] at h
    obtain ⟨b₁, ht, h⟩ := except_bind_eq_ok.mp h
    have hrest := ih (hb.add (token_eq_ok.mp ht)) h
    rwa [List.append_assoc] at hrest

end LayoutBuilder

/-- Every token has its entry in the listing, and the listing keeps the rule for unbounded arrays. -/
theorem Layout.ofTokens_placed {options : CompileOptions} {tokens : List Script.Token}
    {layout : Layout} (h : Layout.ofTokens options tokens = .ok layout) :
    layout.descriptors.map Descriptor.mark = tokens.map Script.Token.mark ∧
      Mark.Placed (tokens.map Script.Token.mark) := by
  obtain ⟨b, hb, hfinish⟩ := except_bind_eq_ok.mp h
  obtain ⟨hopened, rfl⟩ := LayoutBuilder.finish_eq_ok hfinish
  have hfollows := LayoutBuilder.follows_empty.tokens hb
  have hbuilt := hfollows.built
  rw [hopened] at hbuilt
  rw [Layout.descriptors_marks]
  exact ⟨hbuilt, hfollows.placed⟩

/-! ## Lengths in place of unbounded arrays -/

namespace Script

/-- The brackets with a length of one in place of none. -/
def Size.bounded : Size → Size
  | unbounded => expression "1"
  | size => size

/-- The field with a length of one if it is an unbounded array. -/
def FieldDecl.bounded (decl : FieldDecl) : FieldDecl :=
  { decl with size := decl.size.map Size.bounded }

/-- The declaration with a length of one if it is an unbounded array. -/
def Declaration.bounded : Declaration → Declaration
  | field decl => field decl.bounded
  | opening name size => opening name (size.map Size.bounded)
  | closing => closing

/-- The token with a length of one if it is an unbounded array. -/
def Token.bounded (t : Token) : Token := { t with declaration := t.declaration.bounded }

/-- Bounding the lengths leaves the names that are declared. -/
theorem declaredFrom_bounded (outer : List String) (tokens : List Token) :
    declaredFrom outer (tokens.map Token.bounded) = declaredFrom outer tokens := by
  induction tokens generalizing outer with
  | nil => rfl
  | cons t tokens ih =>
    rw [List.map_cons, declaredFrom, declaredFrom]
    rcases ht : t.declaration with decl | ⟨_ | name, size⟩ | _ <;>
      simp only [Token.bounded, ht, Declaration.bounded, FieldDecl.bounded, ih]

end Script

namespace LayoutBuilder

/-- Two builders that differ in nothing that the next declaration asks for but the note of an
unbounded array. -/
structure Twin (b b' : LayoutBuilder) : Prop where
  next : b.next = b'.next
  declared : b.declared = b'.declared
  opened : b.opened.map (fun s => (s.path, s.repeated)) =
    b'.opened.map fun s => (s.path, s.repeated)

variable {options : CompileOptions} {paths : List String} {b b' b₁' : LayoutBuilder}
  {marks : List Mark} {position : Position}

theorem Twin.scope (h : Twin b b') : b.scope options paths = b'.scope options paths := by
  have hpaths := congrArg (List.map Prod.fst) h.opened
  rw [List.map_map, List.map_map] at hpaths
  rw [LayoutBuilder.scope, LayoutBuilder.scope, h.declared]
  exact congrArg (Scope.mk _ _ · _) hpaths

theorem Twin.head (h : Twin b b') :
    b.opened.head?.map (fun s => (s.path, s.repeated)) =
      b'.opened.head?.map fun s => (s.path, s.repeated) := by
  rw [← List.head?_map, ← List.head?_map, h.opened]

theorem Twin.path (h : Twin b b') : b.path = b'.path := by
  have hpath := congrArg (Option.map Prod.fst) h.head
  rw [Option.map_map, Option.map_map] at hpath
  exact congrArg (Option.getD · "") hpath

theorem Twin.repeated (h : Twin b b') : b.repeated = b'.repeated := by
  have hrepeated := congrArg (Option.map Prod.snd) h.head
  rw [Option.map_map, Option.map_map] at hrepeated
  exact congrArg (Option.getD · false) hrepeated

theorem Twin.declare (h : Twin b b') (name : Option String) (numeric : Bool) :
    b.declare name numeric = b'.declare name numeric := by
  unfold LayoutBuilder.declare
  rw [h.path, h.declared, h.next]

/-- Where nothing repeats an unbounded array, it is as good as one of a length. -/
theorem arrayLength_bounded {scope : Scope} {repeated : Bool} {size : Option Script.Size}
    {length' : Option Length} (hrepeated : size = some .unbounded → repeated = false)
    (h : arrayLength scope repeated (size.map .bounded) = .ok length') :
    ∃ length, arrayLength scope repeated size = .ok length ∧ length.isSome = length'.isSome := by
  rcases size with _ | _ | text
  · exact ⟨length', h, rfl⟩
  · refine ⟨some .unbounded, by rw [arrayLength, hrepeated rfl]; rfl, ?_⟩
    have hcounted := arrayLength_extent h
    rcases length' with _ | _
    · cases hcounted
    · rfl
  · exact ⟨length', h, rfl⟩

/-- A field that is accepted with its length bounded is accepted as it stands, unless it is
unbounded within an array. -/
theorem fieldDecl_bounded {scope : Scope} {repeated : Bool} {decl : Script.FieldDecl} {item' : Decl}
    {numeric : Bool} (hrepeated : decl.size = some .unbounded → repeated = false)
    (h : fieldDecl scope options repeated decl.bounded = .ok (item', numeric)) :
    ∃ item, fieldDecl scope options repeated decl = .ok (item, numeric) := by
  have hsize : decl.bounded.size.isSome = decl.size.isSome := Option.isSome_map
  have hdirective : checkDirective decl.bounded = checkDirective decl := by
    rw [checkDirective, hsize]
    rfl
  have hcomputed : checkComputed decl.bounded = checkComputed decl := by
    rw [checkComputed, hsize]
    rfl
  have helement : ∀ type, elementType scope options decl.bounded type =
      elementType scope options decl type := by
    intro type
    rw [elementType.eq_def, elementType.eq_def, customUse, hsize]
    rfl
  have htype : decl.bounded.type = decl.type := rfl
  have hextra : decl.bounded.extra = decl.extra := rfl
  unfold fieldDecl at h ⊢
  simp only [hdirective, hcomputed, htype, hextra, helement] at h
  split at h
  · exact ⟨item', h⟩
  · exact ⟨item', h⟩
  · exact ⟨item', h⟩
  · exact ⟨item', h⟩
  · obtain ⟨element, helement, h⟩ := except_bind_eq_ok.mp h
    obtain ⟨length', hlength, h⟩ := except_bind_eq_ok.mp h
    cases h
    obtain ⟨length, hlength, hsome⟩ := arrayLength_bounded hrepeated hlength
    refine ⟨.value element length, except_bind_eq_ok.mpr ⟨element, helement,
      except_bind_eq_ok.mpr ⟨length, hlength, ?_⟩⟩⟩
    have hnone : length.isNone = length'.isNone := by
      rw [← Option.not_isSome, ← Option.not_isSome, hsome]
    rw [hnone]
    rfl

/-- A declaration that the twin with bounds accepts is accepted where its mark is allowed. -/
theorem Twin.add {d : Script.Declaration} (h : Twin b b')
    (hended : d.mark ≠ .closing → b.checkEnded = .ok ())
    (hrepeated : d.mark.extent = .unbounded → b.repeated = false)
    (hadd : b'.add options paths position d.bounded = .ok b₁') :
    ∃ b₁, b.add options paths position d = .ok b₁ ∧ Twin b₁ b₁' := by
  cases d with
  | field decl =>
    obtain ⟨⟨⟩, -, hadd⟩ := except_bind_eq_ok.mp hadd
    obtain ⟨⟨item', numeric⟩, hitem, hadd⟩ := except_bind_eq_ok.mp hadd
    obtain ⟨⟨info, declared⟩, hdeclare, hadd⟩ := except_bind_eq_ok.mp hadd
    cases hadd
    rw [← h.scope, ← h.repeated] at hitem
    obtain ⟨item, hitem⟩ := fieldDecl_bounded
      (fun hsize => hrepeated (Extent.ofSize_eq_unbounded.mpr hsize)) hitem
    rw [← h.declare] at hdeclare
    refine ⟨_, except_bind_eq_ok.mpr ⟨(), hended nofun, except_bind_eq_ok.mpr ⟨_, hitem,
      except_bind_eq_ok.mpr ⟨_, hdeclare, rfl⟩⟩⟩, ?_, rfl, h.opened⟩
    exact congrArg (· + 1) h.next
  | opening name size =>
    obtain ⟨⟨⟩, -, hadd⟩ := except_bind_eq_ok.mp hadd
    obtain ⟨length', hlength, hadd⟩ := except_bind_eq_ok.mp hadd
    obtain ⟨⟨info, declared⟩, hdeclare, hadd⟩ := except_bind_eq_ok.mp hadd
    cases hadd
    rw [← h.scope, ← h.repeated] at hlength
    obtain ⟨length, hlength, hsome⟩ := arrayLength_bounded
      (fun hsize => hrepeated (Extent.ofSize_eq_unbounded.mpr hsize)) hlength
    rw [← h.declare] at hdeclare
    refine ⟨_, except_bind_eq_ok.mpr ⟨(), hended nofun, except_bind_eq_ok.mpr ⟨_, hlength,
      except_bind_eq_ok.mpr ⟨_, hdeclare, rfl⟩⟩⟩, ?_, rfl, ?_⟩
    · exact congrArg (· + 1) h.next
    · simp only [List.map_cons, h.opened, h.path, h.repeated, hsome]
  | closing =>
    -- A closing brace has nothing to bound, and the structures that are open match.
    have hopened := h.opened
    simp only [LayoutBuilder.add, Script.Declaration.bounded, closing] at hadd ⊢
    cases hinner' : b'.opened with
    | nil =>
      rw [hinner'] at hadd
      cases hadd
    | cons s' opened' =>
      rw [hinner'] at hadd hopened
      cases hadd
      cases hinner : b.opened with
      | nil =>
        rw [hinner] at hopened
        cases hopened
      | cons s opened =>
        rw [hinner, List.map_cons, List.map_cons, List.cons.injEq] at hopened
        exact ⟨_, rfl, congrArg (· + 1) h.next, h.declared, hopened.2⟩

/-- A script whose marks are well placed is accepted as its twin with bounds is. -/
theorem Twin.tokens {tokens : List Script.Token} (h : Twin b b') (hb : Follows marks b)
    (hplaced : Mark.Placed (marks ++ tokens.map Script.Token.mark))
    (hrun : (tokens.map Script.Token.bounded).foldlM (token options paths) b' = .ok b₁') :
    ∃ b₁, tokens.foldlM (token options paths) b = .ok b₁ ∧ Twin b₁ b₁' := by
  induction tokens generalizing marks b b' with
  | nil =>
    cases hrun
    exact ⟨b, rfl, h⟩
  | cons t tokens ih =>
    rw [List.map_cons, List.foldlM_cons] at hrun
    obtain ⟨b₂', ht, hrun⟩ := except_bind_eq_ok.mp hrun
    rw [List.map_cons] at hplaced
    obtain ⟨hended, hrepeated⟩ := hb.allows_iff.mp hplaced.allows
    obtain ⟨b₂, hadd, htwin⟩ := h.add hended hrepeated (token_eq_ok.mp ht)
    have hplaced : Mark.Placed ((marks ++ [t.mark]) ++ tokens.map Script.Token.mark) := by
      rwa [List.append_assoc]
    obtain ⟨b₁, hrest, htwin⟩ := ih htwin (hb.add hadd) hplaced hrun
    refine ⟨b₁, ?_, htwin⟩
    rw [List.foldlM_cons]
    exact except_bind_eq_ok.mpr ⟨b₂, token_eq_ok.mpr hadd, hrest⟩

end LayoutBuilder

/-- Unbounded arrays are accepted exactly where the rule lets them stand. The listing of what is
compiled keeps the rule, entry for token; and tokens that keep it compile, if they do with a length in
place of each unbounded array. -/
theorem Layout.unbounded_exactly_where_placed (options : CompileOptions)
    (tokens : List Script.Token) :
    (∀ layout, Layout.ofTokens options tokens = .ok layout →
      layout.descriptors.map Descriptor.mark = tokens.map Script.Token.mark ∧
        Mark.Placed (tokens.map Script.Token.mark) ∧
          (layout.block options.customs).UnboundedLast) ∧
    ∀ bounded, Layout.ofTokens options (tokens.map Script.Token.bounded) = .ok bounded →
      Mark.Placed (tokens.map Script.Token.mark) →
        ∃ layout, Layout.ofTokens options tokens = .ok layout := by
  constructor
  · intro layout h
    obtain ⟨hmarks, hplaced⟩ := Layout.ofTokens_placed h
    refine ⟨hmarks, hplaced, Block.unboundedLast_block (Layout.ofTokens_scoped h) ?_⟩
    rw [← hmarks] at hplaced
    exact hplaced
  · intro bounded h hplaced
    obtain ⟨b', hb', hfinish⟩ := except_bind_eq_ok.mp h
    rw [Script.declaredPaths, Script.declaredFrom_bounded] at hb'
    obtain ⟨b, hb, htwin⟩ := LayoutBuilder.Twin.tokens ⟨rfl, rfl, rfl⟩ LayoutBuilder.follows_empty
      hplaced hb'
    have hopened := htwin.opened
    rw [(LayoutBuilder.finish_eq_ok hfinish).1, List.map_nil, List.map_eq_nil_iff] at hopened
    refine ⟨b.body, except_bind_eq_ok.mpr ⟨b, hb, ?_⟩⟩
    rw [LayoutBuilder.finish, hopened]

end RecordLayout
