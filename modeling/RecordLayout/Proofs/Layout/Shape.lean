import RecordLayout.Layout.Compile
import RecordLayout.Proofs.Outcome

/-!
# The shape of compiled layouts

Two things hold of every layout that a script compiles to: a declared name knows the index of its
declaration, and an unbounded array takes the rest of the record, so that nothing follows it and
nothing repeats it. Both are kept by the builder from token to token.
-/

namespace RecordLayout

/-- The name of the declaration knows its index. -/
def Header.Numbered (head : Header) : Prop :=
  ∀ info, head.info = some info → info.index = head.index

namespace Layout

/-- The names of all declarations know their indexes. -/
def Numbered : Layout → Prop
  | done => True
  | item head _ rest => head.Numbered ∧ rest.Numbered
  | group head _ body _ rest => head.Numbered ∧ body.Numbered ∧ rest.Numbered

/-- There is an unbounded array, at any depth. -/
def endless : Layout → Bool
  | done => false
  | item _ decl rest => decl.length == some .unbounded || rest.endless
  | group _ length body _ rest => length == some .unbounded || body.endless || rest.endless

/-- Nothing follows an unbounded array, and nothing repeats it. -/
def Terminal : Layout → Prop
  | done => True
  | item _ decl rest => (decl.length = some .unbounded → rest = done) ∧ rest.Terminal
  | group _ length body _ rest =>
    (length = some .unbounded ∨ body.endless = true → rest = done) ∧
      (length.isSome = true → body.endless = false) ∧ body.Terminal ∧ rest.Terminal

/-- Layouts with numbers of their own stay so one behind another. -/
theorem numbered_append {k l : Layout} (hk : k.Numbered) (hl : l.Numbered) : (k ++ l).Numbered := by
  induction k with
  | done => exact hl
  | item head decl rest ih => exact ⟨hk.1, ih hk.2⟩
  | group head length body closing rest _ ih => exact ⟨hk.1, hk.2.1, ih hk.2.2⟩

theorem endless_append (k l : Layout) : (k ++ l).endless = (k.endless || l.endless) := by
  induction k with
  | done => rfl
  | item head decl rest ih => rw [item_append, endless, endless, ih, Bool.or_assoc]
  | group head length body closing rest _ ih =>
    rw [group_append, endless, endless, ih, Bool.or_assoc, Bool.or_assoc, Bool.or_assoc]

/-- A layout that has no end may only be the last. -/
theorem terminal_append {k l : Layout} (hk : k.Terminal) (hbounded : k.endless = false)
    (hl : l.Terminal) : (k ++ l).Terminal := by
  induction k with
  | done => exact hl
  | item head decl rest ih =>
    simp only [endless, Bool.or_eq_false_iff, beq_eq_false_iff_ne] at hbounded
    exact ⟨fun h => absurd h hbounded.1, ih hk.2 hbounded.2⟩
  | group head length body closing rest _ ih =>
    simp only [endless, Bool.or_eq_false_iff, beq_eq_false_iff_ne] at hbounded
    refine ⟨?_, hk.2.1, hk.2.2.1, ih hk.2.2.2 hbounded.2⟩
    rintro (h | h)
    · exact absurd h hbounded.1.1
    · rw [hbounded.1.2] at h
      cases h

end Layout

namespace LayoutBuilder

/-! ## Steps of the builder -/

theorem token_eq_ok {options : CompileOptions} {paths : List String} {b b' : LayoutBuilder}
    {t : Script.Token} :
    b.token options paths t = .ok b' ↔ b.add options paths t.position t.declaration = .ok b' := by
  unfold token
  cases b.add options paths t.position t.declaration <;> simp [Except.mapError]

/-- A script that was accepted has closed its structures. -/
theorem finish_eq_ok {b : LayoutBuilder} {l : Layout} (h : b.finish = .ok l) :
    b.opened = [] ∧ b.body = l := by
  unfold finish at h
  split at h
  · rename_i hopened
    cases h
    exact ⟨hopened, rfl⟩
  · cases h

/-- What every token keeps, a whole script keeps. -/
theorem kept_by_tokens {options : CompileOptions} {paths : List String}
    {P : LayoutBuilder → Prop}
    (hkept : ∀ b b' t, P b → b.token options paths t = .ok b' → P b')
    {tokens : List Script.Token} {b b' : LayoutBuilder} (hb : P b)
    (h : tokens.foldlM (token options paths) b = .ok b') : P b' := by
  induction tokens generalizing b with
  | nil =>
    cases h
    exact hb
  | cons t tokens ih =>
    rw [List.foldlM_cons] at h
    obtain ⟨b₁, ht, h⟩ := except_bind_eq_ok.mp h
    exact ih (hkept b b₁ t hb ht) h

/-! ## What the builder keeps -/

/-- An array is among these open structures. -/
def repeats (opened : List OpenStruct) : Bool := (opened.head?.map OpenStruct.repeated).getD false

/-- What holds of the open structures. -/
def OpenedWell : List OpenStruct → Prop
  | [] => True
  | s :: rest =>
    (s.before.Numbered ∧ s.before.Terminal ∧ s.before.endless = false) ∧ s.head.Numbered ∧
      s.repeated = (s.length.isSome || repeats rest) ∧
      (repeats rest = true → s.length ≠ some .unbounded) ∧ OpenedWell rest

/-- What holds of the builder between two tokens. -/
structure WellBuilt (b : LayoutBuilder) : Prop where
  numbered : b.body.Numbered
  terminal : b.body.Terminal
  ended : b.body.endless = true → b.ended.isSome = true
  bounded : b.repeated = true → b.body.endless = false
  opened : OpenedWell b.opened

theorem wellBuilt_empty : WellBuilt .empty :=
  ⟨trivial, trivial, (fun h => by cases h), fun _ => rfl, trivial⟩

/-- What accepts more is bounded so far. -/
theorem WellBuilt.bounded_of_checkEnded {b : LayoutBuilder} (h : WellBuilt b)
    (hcheck : b.checkEnded = .ok ()) : b.body.endless = false := by
  unfold checkEnded at hcheck
  cases hended : b.ended with
  | some array =>
    rw [hended] at hcheck
    cases hcheck
  | none =>
    cases hendless : b.body.endless with
    | false => rfl
    | true =>
      have := h.ended hendless
      rw [hended] at this
      cases this

/-- An array that is repeated has a bound. -/
theorem arrayLength_repeated {scope : Scope} {repeated : Bool} {size : Option Script.Size}
    {length : Option Length} (h : arrayLength scope repeated size = .ok length)
    (hrepeated : repeated = true) : length ≠ some .unbounded := by
  subst hrepeated
  unfold arrayLength at h
  split at h
  · cases h
    simp
  · cases h
  · obtain ⟨e, -, h⟩ := except_bind_eq_ok.mp h
    split at h
    · split at h
      · cases h
        simp
      · cases h
    · cases h
      simp

/-- A name is declared under the number of its declaration. -/
theorem declare_numbered {b : LayoutBuilder} {name : Option String} {numeric : Bool}
    {info : Option FieldInfo} {declared : List Declared}
    (h : b.declare name numeric = .ok (info, declared)) :
    ∀ i, info = some i → i.index = b.next := by
  unfold declare at h
  split at h
  · cases h
    simp
  · simp only at h
    split at h
    · cases h
    · cases h
      simp

theorem size_of_checkDirective {decl : Script.FieldDecl} (h : checkDirective decl = .ok ()) :
    decl.size = none := by
  unfold checkDirective at h
  split at h
  · cases h
  · rename_i hsize
    exact Option.not_isSome_iff_eq_none.mp hsize

theorem size_of_checkComputed {decl : Script.FieldDecl} (h : checkComputed decl = .ok ()) :
    decl.size = none := by
  unfold checkComputed at h
  split at h
  · cases h
  · rename_i hsize
    exact Option.not_isSome_iff_eq_none.mp hsize

/-- Only a value can be an array without a length. -/
theorem fieldDecl_repeated {scope : Scope} {options : CompileOptions} {repeated : Bool}
    {decl : Script.FieldDecl} {item : Decl} {numeric : Bool}
    (h : fieldDecl scope options repeated decl = .ok (item, numeric))
    (hrepeated : repeated = true) :
    item.length ≠ some .unbounded := by
  unfold fieldDecl at h
  split at h
  · obtain ⟨-, -, h⟩ := except_bind_eq_ok.mp h
    obtain ⟨n, -, h⟩ := except_bind_eq_ok.mp h
    cases h
    simp [Decl.length]
  · obtain ⟨-, -, h⟩ := except_bind_eq_ok.mp h
    obtain ⟨n, -, h⟩ := except_bind_eq_ok.mp h
    cases h
    simp [Decl.length]
  · obtain ⟨-, -, h⟩ := except_bind_eq_ok.mp h
    obtain ⟨-, -, h⟩ := except_bind_eq_ok.mp h
    cases h
    simp [Decl.length]
  · obtain ⟨-, -, h⟩ := except_bind_eq_ok.mp h
    obtain ⟨e, -, h⟩ := except_bind_eq_ok.mp h
    cases h
    simp [Decl.length]
  · obtain ⟨element, -, h⟩ := except_bind_eq_ok.mp h
    obtain ⟨length, hlength, h⟩ := except_bind_eq_ok.mp h
    cases h
    exact arrayLength_repeated hlength hrepeated

/-- A field keeps the shape. -/
theorem wellBuilt_field {options : CompileOptions} {paths : List String} {b b' : LayoutBuilder}
    {position : Position} {decl : Script.FieldDecl} (hb : WellBuilt b)
    (h : b.field options paths position decl = .ok b') : WellBuilt b' := by
  obtain ⟨⟨⟩, hcheck, h⟩ := except_bind_eq_ok.mp h
  obtain ⟨⟨item, numeric⟩, hitem, h⟩ := except_bind_eq_ok.mp h
  obtain ⟨⟨info, declared⟩, hdeclare, h⟩ := except_bind_eq_ok.mp h
  cases h
  have hbounded := hb.bounded_of_checkEnded hcheck
  have hendless : ∀ head, (b.body ++ Layout.item head item .done).endless =
      (item.length == some .unbounded) := by
    intro head
    rw [Layout.endless_append, hbounded, Bool.false_or, Layout.endless, Layout.endless,
      Bool.or_false]
  refine ⟨Layout.numbered_append hb.numbered ⟨declare_numbered hdeclare, trivial⟩,
    Layout.terminal_append hb.terminal hbounded ⟨fun _ => rfl, trivial⟩, ?_, ?_, hb.opened⟩
  · intro h
    rw [hendless, beq_iff_eq] at h
    simp [h]
  · intro h
    rw [hendless]
    simpa using fieldDecl_repeated hitem h

theorem wellBuilt_opening {options : CompileOptions} {paths : List String} {b b' : LayoutBuilder}
    {position : Position} {name : Option String} {size : Option Script.Size} (hb : WellBuilt b)
    (h : b.opening options paths position name size = .ok b') : WellBuilt b' := by
  obtain ⟨⟨⟩, hcheck, h⟩ := except_bind_eq_ok.mp h
  obtain ⟨length, hlength, h⟩ := except_bind_eq_ok.mp h
  obtain ⟨⟨info, declared⟩, hdeclare, h⟩ := except_bind_eq_ok.mp h
  cases h
  refine ⟨trivial, trivial, (fun h => by cases h), fun _ => rfl, ?_⟩
  exact ⟨⟨hb.numbered, hb.terminal, hb.bounded_of_checkEnded hcheck⟩, declare_numbered hdeclare,
    rfl, arrayLength_repeated hlength, hb.opened⟩

/-- A closed structure keeps the shape: it is the end of what is around it if it is unbounded. -/
theorem wellBuilt_closing {b b' : LayoutBuilder} {position : Position} (hb : WellBuilt b)
    (h : b.closing position = .ok b') : WellBuilt b' := by
  unfold closing at h
  cases hopened : b.opened with
  | nil =>
    rw [hopened] at h
    cases h
  | cons s opened =>
    rw [hopened] at h
    cases h
    have hwell := hb.opened
    rw [hopened] at hwell
    obtain ⟨⟨hnumbered, hterminal, hbefore⟩, hhead, hrepeated, hlength, hrest⟩ := hwell
    have hinside : b.repeated = s.repeated := by rw [repeated, hopened]; rfl
    have hendless : (s.before ++ Layout.group s.head s.length b.body position .done).endless =
        (s.length == some .unbounded || b.body.endless) := by
      rw [Layout.endless_append, hbefore, Bool.false_or, Layout.endless, Layout.endless,
        Bool.or_false]
    refine ⟨Layout.numbered_append hnumbered ⟨hhead, hb.numbered, trivial⟩,
      Layout.terminal_append hterminal hbefore ⟨fun _ => rfl, ?_, hb.terminal, trivial⟩, ?_, ?_,
      hrest⟩
    · intro h
      exact hb.bounded (by rw [hinside, hrepeated, h, Bool.true_or])
    · intro h
      rw [hendless, Bool.or_eq_true, beq_iff_eq] at h
      by_cases hunbounded : s.length = some .unbounded
      · simp [hunbounded]
      · simp only [hunbounded, if_false, false_or] at h ⊢
        exact hb.ended h
    · intro h
      have h : repeats opened = true := h
      rw [hendless, hb.bounded (by rw [hinside, hrepeated, h, Bool.or_true]), Bool.or_false]
      simpa using hlength h

theorem wellBuilt_token {options : CompileOptions} {paths : List String} {b b' : LayoutBuilder}
    {t : Script.Token} (hb : WellBuilt b) (h : b.token options paths t = .ok b') :
    WellBuilt b' := by
  have hadd := token_eq_ok.mp h
  unfold add at hadd
  split at hadd
  · exact wellBuilt_field hb hadd
  · exact wellBuilt_opening hb hadd
  · exact wellBuilt_closing hb hadd

theorem wellBuilt_tokens {options : CompileOptions} {paths : List String}
    {tokens : List Script.Token} {b b' : LayoutBuilder} (hb : WellBuilt b)
    (h : tokens.foldlM (token options paths) b = .ok b') : WellBuilt b' :=
  kept_by_tokens (fun _ _ _ => wellBuilt_token) hb h

end LayoutBuilder

/-- What holds of the layout of every compiled script. -/
theorem compile_shape {options : CompileOptions} {source : String} {schema : Schema}
    (h : compile options source = .ok schema) :
    schema.layout.Numbered ∧ schema.layout.Terminal := by
  obtain ⟨tokens, -, h⟩ := except_bind_eq_ok.mp h
  obtain ⟨layout, hlayout, h⟩ := except_bind_eq_ok.mp h
  cases h
  obtain ⟨b, hb, hfinish⟩ := except_bind_eq_ok.mp hlayout
  have hwell := LayoutBuilder.wellBuilt_tokens LayoutBuilder.wellBuilt_empty hb
  obtain ⟨-, rfl⟩ := LayoutBuilder.finish_eq_ok hfinish
  exact ⟨hwell.numbered, hwell.terminal⟩

end RecordLayout
