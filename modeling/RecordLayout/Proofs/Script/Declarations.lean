import RecordLayout.Proofs.Script.Productions

/-!
# Written declarations are read

A declaration that can be written is read as that declaration, however it is set. The parts that need
not be there are taken one by one: behind each of them, and where it is missing, the gap ends in front
of the next one.
-/

namespace RecordLayout.Script.Scanner

variable {α β : Type} {s : Setting} {d : FieldDecl} {input rest : List Char} {p : Char → Prop}

/-! ## What comes next

The first character of the rest, where a part is missing, or that of the part. -/

/-- The character is skipped by no gap and begins no comment. -/
abbrev Dense (c : Char) : Prop := Text.isSeparator c = false ∧ c ≠ '/'

/-- The character neither goes on with a name nor makes it the directive. -/
abbrev Bounding (c : Char) : Prop := isNamePart c = false ∧ c ≠ '$'

theorem head_mark {c : Char} (hp : p c) (rest : List Char) : ∀ d ∈ (c :: rest).head?, p d := by
  rintro d ⟨⟩
  exact hp

/-- A part that may stand there begins as a name does, or what follows it comes first. -/
theorem head_namePart {behind : List Space} {name : Option String}
    (hp : ∀ c, isNameStart c = true → p c) (hname : ∀ n, name = some n → IsName n.toList)
    (hrest : ∀ c ∈ rest.head?, p c) :
    ∀ c ∈ (renderPart String.toList behind name ++ rest).head?, p c := by
  cases name with
  | none => exact hrest
  | some n =>
    obtain ⟨c, more, htext, hc, -⟩ := hname n rfl
    rw [renderPart, htext]
    exact head_mark (hp c hc) _

theorem head_sizePart {size : Option Size} (hp : p '[') (hrest : ∀ c ∈ rest.head?, p c) :
    ∀ c ∈ (renderPart s.renderSize s.behindSize size ++ rest).head?, p c := by
  cases size with
  | none => exact hrest
  | some z => cases z <;> exact head_mark hp _

theorem head_extraPart {extra : Option Extra} (hp : p ':') (hrest : ∀ c ∈ rest.head?, p c) :
    ∀ c ∈ (renderPart s.renderExtra s.behindExtra extra ++ rest).head?, p c := by
  cases extra with
  | none => exact hrest
  | some e => cases e <;> exact head_mark hp _

/-! ## Parts that need not be there -/

/-- A part is read, or it is missing; either way the gap behind it ends where the rest begins. -/
theorem reads_part {scanner : Scanner β} {render : α → List Char} {behind : List Space}
    {part : Option α} {found : Option β} (hbehind : Space.AllFit behind) (hsolid : Solid rest)
    (hpresent : ∀ x, part = some x → ∃ y, found = some y ∧
      Reads scanner (render x ++ (Space.renderAll behind ++ rest)) y (Space.renderAll behind ++ rest))
    (habsent : part = none → found = none ∧ Refuses scanner rest) :
    ∃ mid, Reads (maybe scanner) (renderPart render behind part ++ rest) found mid ∧
      Reads gap mid () rest := by
  cases part with
  | none =>
    obtain ⟨rfl, hrefuses⟩ := habsent rfl
    exact ⟨rest, hrefuses.maybe, reads_no_spaces hsolid⟩
  | some x =>
    obtain ⟨y, rfl, hread⟩ := hpresent x rfl
    refine ⟨Space.renderAll behind ++ rest, ?_, reads_spaces hbehind hsolid⟩
    rw [renderPart, List.append_assoc]
    exact hread.maybe

/-- Behind a gap no name goes on. -/
theorem not_isNamePart_behind {behind : List Space} (hbehind : Space.AllFit behind)
    (hrest : behind = [] → ∀ c ∈ rest.head?, Bounding c) :
    ∀ c ∈ (Space.renderAll behind ++ rest).head?, Bounding c := by
  intro c hc
  rcases Space.head_renderAll hbehind hc with (hseparator | rfl) | ⟨hempty, hc⟩
  · refine ⟨not_isNamePart_of_isSeparator hseparator, ?_⟩
    rintro rfl
    exact absurd hseparator (by decide)
  · decide
  · exact hrest hempty c hc

/-- The mark of a byte order is read, with the gap behind it. -/
theorem reads_orderPart (hs : s.Fits) (order : Option ByteOrder) (hsolid : Solid rest)
    (hrest : ∀ c ∈ rest.head?, c ≠ '<' ∧ c ≠ '>') :
    ∃ mid, Reads (maybe byteOrder) (renderPart orderMark s.behindOrder order ++ rest) order mid ∧
      Reads gap mid () rest := by
  apply reads_part hs.behindOrder hsolid
  · intro mark hmark
    exact ⟨mark, hmark, reads_byteOrder mark _⟩
  · intro hnone
    exact ⟨hnone, refuses_byteOrder hrest⟩

/-- A parameter is read with the gap behind it. -/
theorem reads_extraPart (hs : s.Fits) {extra : Option Extra}
    (hextra : ∀ e, extra = some e → e.Writable) (hsolid : Solid rest)
    (hrest : ∀ c ∈ rest.head?, c ≠ ':')
    (hapart : ∀ n, extra = some (.number n) → s.behindExtra = [] →
      ∀ c ∈ rest.head?, Bounding c) :
    ∃ mid, Reads (maybe typeExtra) (renderPart s.renderExtra s.behindExtra extra ++ rest)
        (extra.map .ok) mid ∧
      Reads gap mid () rest := by
  apply reads_part hs.behindExtra hsolid
  · intro e he
    refine ⟨.ok e, by rw [he]; rfl, reads_typeExtra hs (hextra e he) ?_⟩
    rintro n rfl c hc
    exact (not_isNamePart_behind hs.behindExtra (hapart n he) c hc).1
  · intro hnone
    exact ⟨by rw [hnone]; rfl, refuses_typeExtra hrest⟩

theorem reads_sizePart (hs : s.Fits) {size : Option Size} (hsize : ∀ z, size = some z → z.Writable)
    (hsolid : Solid rest) (hrest : ∀ c ∈ rest.head?, c ≠ '[') :
    ∃ mid, Reads (maybe arraySize) (renderPart s.renderSize s.behindSize size ++ rest) size mid ∧
      Reads gap mid () rest := by
  apply reads_part hs.behindSize hsolid
  · intro z hz
    exact ⟨z, hz, reads_arraySize hs (hsize z hz) _⟩
  · intro hnone
    exact ⟨hnone, refuses_arraySize hrest⟩

/-- A name is read with the gap behind it. -/
theorem reads_namePart (hs : s.Fits) {name : Option String}
    (hname : ∀ n, name = some n → IsName n.toList) (hsolid : Solid rest)
    (hrest : ∀ c ∈ rest.head?, Bounding c) :
    ∃ mid, Reads (maybe fieldName) (renderPart String.toList s.behindName name ++ rest) name mid ∧
      Reads gap mid () rest := by
  apply reads_part hs.behindName hsolid
  · intro n hn
    refine ⟨n, hn, reads_fieldName (hname n hn) fun c hc => ?_⟩
    exact (not_isNamePart_behind hs.behindName (fun _ => hrest) c hc).1
  · intro hnone
    refine ⟨hnone, refuses_fieldName fun c hc => ?_⟩
    rw [Bool.eq_false_iff]
    intro hstart
    have hpart := (hrest c hc).1
    rw [isNamePart_of_isNameStart hstart] at hpart
    cases hpart

/-! ## Braces -/

theorem reads_structEnd (rest : List Char) : Reads structEnd ('\x7d' :: rest) .closing rest :=
  ((reads_single '\x7d' rest).bind_pure fun _ => Declaration.closing).named .structEnd

theorem refuses_structEnd (h : ∀ c ∈ input.head?, c ≠ '\x7d') : Refuses structEnd input :=
  (Refuses.bind (refuses_single h)).named .structEnd

/-- The opening of a structure behind its name and the gap there. -/
def structBrace (name : Option String) : Scanner Declaration := do
  let size ← maybe arraySize
  gap
  symbol '\x7b'
  pure (.opening name size)

theorem structStart_eq :
    structStart = named .structStart (maybe fieldName >>= fun name => gap >>= fun _ =>
      structBrace name) := rfl

/-- The front of a structure is read up to its brace. -/
theorem reads_structStart (hs : s.Fits) {name : Option String} {size : Option Size}
    (h : (Declaration.opening name size).Writable) (rest : List Char) :
    Reads structStart (s.render (.opening name size) ++ rest) (.opening name size) rest := by
  obtain ⟨hname, hsize⟩ := h
  have hinput : s.render (.opening name size) ++ rest =
      renderPart String.toList s.behindName name ++
        (renderPart s.renderSize s.behindSize size ++ '\x7b' :: rest) := by
    simp [Setting.render]
  have hsolid : Solid (renderPart s.renderSize s.behindSize size ++ '\x7b' :: rest) :=
    solid_of_head (head_sizePart (p := Dense) (by decide) (head_mark (by decide) rest))
  have hstop : ∀ c ∈ (renderPart s.renderSize s.behindSize size ++ '\x7b' :: rest).head?,
      Bounding c := head_sizePart (p := Bounding) (by decide) (head_mark (by decide) rest)
  obtain ⟨mid, hread, hgap⟩ := reads_namePart hs hname hsolid hstop
  have hbrace : Solid ('\x7b' :: rest) := solid_mark (by decide) (by decide) rest
  have hbracket : ∀ c ∈ ('\x7b' :: rest).head?, c ≠ '[' := head_mark (p := (· ≠ '[')) (by decide) rest
  obtain ⟨mid', hread', hgap'⟩ := reads_sizePart hs hsize hbrace hbracket
  rw [structStart_eq, hinput]
  apply Reads.named
  apply hread.bind
  apply hgap.bind
  apply hread'.bind
  apply hgap'.bind
  exact (reads_single '\x7b' rest).bind_pure fun _ => Declaration.opening name size

/-- Where neither brackets nor the brace come next, no structure opens. -/
theorem refuses_structBrace (hsolid : Solid input) (h : ∀ c ∈ input.head?, c ≠ '[' ∧ c ≠ '\x7b')
    (name : Option String) : Refuses (structBrace name) input := by
  have hsize : Refuses arraySize input := refuses_arraySize fun c hc => (h c hc).1
  apply hsize.maybe.bind_refuses
  apply (reads_no_spaces hsolid).bind_refuses
  apply Refuses.bind
  exact refuses_single fun c hc => (h c hc).2

/-- Where no name comes next either. -/
theorem refuses_structStart_mark {c : Char} (hdense : Dense c) (hname : isNameStart c = false)
    (hc : c ≠ '[' ∧ c ≠ '\x7b') (rest : List Char) : Refuses structStart (c :: rest) := by
  have hsolid := solid_mark hdense.1 hdense.2 rest
  have hrefuses : Refuses fieldName (c :: rest) := refuses_fieldName (head_mark hname rest)
  rw [structStart_eq]
  apply Refuses.named
  apply hrefuses.maybe.bind_refuses
  apply (reads_no_spaces hsolid).bind_refuses
  exact refuses_structBrace hsolid (head_mark hc rest) none

/-! ## Fields -/

/-- What stands behind the gap behind the type of a field. -/
def behindType (s : Setting) (d : FieldDecl) (rest : List Char) : List Char :=
  renderPart s.renderExtra s.behindExtra d.extra ++
    (renderPart s.renderSize s.behindSize d.size ++
      (renderPart String.toList s.behindName d.name ++ ';' :: rest))

/-- A field is its mark, its type and what stands behind the type. -/
theorem render_field (s : Setting) (d : FieldDecl) (rest : List Char) :
    s.render (.field d) ++ rest =
      renderPart orderMark s.behindOrder d.order ++
        (d.type.toList ++ (Space.renderAll s.behindType ++ behindType s d rest)) := by
  simp [Setting.render, behindType]

theorem head_typeName {type : String} (hp : ∀ c, isNameStart c = true → p c)
    (h : IsTypeName type) (rest : List Char) : ∀ c ∈ (type.toList ++ rest).head?, p c := by
  rcases h with rfl | ⟨c, more, htext, hc, -⟩
  · exact head_mark (hp 'r' (by decide)) _
  · rw [htext]
    exact head_mark (hp c (isNameStart_of_isAlpha hc)) _

theorem ne_of_isNameStart {c : Char} (h : isNameStart c = true) :
    (c ≠ '[' ∧ c ≠ '\x7b') ∧ (c ≠ '<' ∧ c ≠ '>') ∧ c ≠ '\x7d' ∧ c ≠ ':' := by
  refine ⟨⟨?_, ?_⟩, ⟨?_, ?_⟩, ?_, ?_⟩ <;> rintro rfl <;> exact absurd h (by decide)

/-- The next lexeme behind the type is not skipped as a gap. -/
theorem solid_behindType (s : Setting) (hd : d.Writable) (rest : List Char) :
    Solid (behindType s d rest) := by
  apply solid_of_head
  apply head_extraPart (p := Dense) (by decide)
  apply head_sizePart (p := Dense) (by decide)
  apply head_namePart (p := Dense) (fun c => not_isSeparator_of_isNameStart) hd.name
  exact head_mark (by decide) rest

/-- No name goes on behind the type, nor behind a number. -/
theorem bounding_of_apart (hapart : s.Apart (.field d)) (rest : List Char) :
    (s.behindType = [] → ∀ c ∈ (behindType s d rest).head?, Bounding c) ∧
      ∀ n, d.extra = some (.number n) → s.behindExtra = [] →
        ∀ c ∈ (renderPart s.renderSize s.behindSize d.size ++
          (renderPart String.toList s.behindName d.name ++ ';' :: rest)).head?, Bounding c := by
  rcases d with ⟨order, type, extra, size, name⟩
  have hmark : ∀ c ∈ (';' :: rest).head?, Bounding c := head_mark (by decide) rest
  cases size with
  | some z =>
    have hsize : ∀ c ∈ (renderPart s.renderSize s.behindSize (some z) ++
        (renderPart String.toList s.behindName name ++ ';' :: rest)).head?, Bounding c := by
      cases z <;> exact head_mark (by decide) _
    exact ⟨fun _ => head_extraPart (by decide) hsize, fun _ _ _ => hsize⟩
  | none =>
    cases name with
    | none => exact ⟨fun _ => head_extraPart (by decide) hmark, fun _ _ _ => hmark⟩
    | some n =>
      cases extra with
      | none => exact ⟨fun hempty => absurd hempty hapart, nofun⟩
      | some e =>
        cases e with
        | expression text => exact ⟨fun _ => head_mark (by decide) _, nofun⟩
        | number m =>
          exact ⟨fun _ => head_mark (by decide) _, fun _ _ hempty => absurd hempty hapart⟩

section

variable (hs : s.Fits) (hd : d.Writable)
include hs hd

/-- Behind the type of a field there may be brackets, but no brace. -/
theorem refuses_structBrace_behindType (name : Option String) (rest : List Char) :
    Refuses (structBrace name) (behindType s d rest) := by
  have hsolid := solid_behindType s hd rest
  rcases d with ⟨order, type, extra, size, fieldName⟩
  have hend : ∀ c ∈ (renderPart String.toList s.behindName fieldName ++ ';' :: rest).head?,
      Dense c ∧ c ≠ '[' ∧ c ≠ '\x7b' := by
    refine head_namePart (p := fun c => Dense c ∧ c ≠ '[' ∧ c ≠ '\x7b') ?_ hd.name
      (head_mark (by decide) rest)
    intro c hc
    exact ⟨not_isSeparator_of_isNameStart hc, (ne_of_isNameStart hc).1⟩
  cases extra with
  | some e =>
    apply refuses_structBrace hsolid
    cases e <;> exact head_mark (by decide) _
  | none =>
    cases size with
    | none => exact refuses_structBrace hsolid (fun c hc => (hend c hc).2) name
    | some z =>
      have hread := reads_arraySize hs (hd.size z rfl) (Space.renderAll s.behindSize ++
        (renderPart String.toList s.behindName fieldName ++ ';' :: rest))
      have hgap := reads_spaces hs.behindSize (solid_of_head fun c hc => (hend c hc).1)
      rw [behindType, renderPart, List.nil_append, renderPart, List.append_assoc]
      apply hread.maybe.bind_refuses
      apply hgap.bind_refuses
      apply Refuses.bind
      exact refuses_single fun c hc => (hend c hc).2.2

variable (hapart : s.Apart (.field d))
include hapart

/-- A field is first tried as the opening of a structure: its type is taken for the name, its brackets
for those of the structure, and there the brace is missing. -/
theorem refuses_structStart_field (rest : List Char) :
    Refuses structStart (s.render (.field d) ++ rest) := by
  obtain ⟨hbounding, -⟩ := bounding_of_apart hapart rest
  have hgap := reads_spaces hs.behindType (solid_behindType s hd rest)
  have hbrace := fun name => refuses_structBrace_behindType hs hd name rest
  have hstop := not_isNamePart_behind hs.behindType hbounding
  rw [render_field]
  cases horder : d.order with
  | some order => cases order <;> exact refuses_structStart_mark (by decide) (by decide) (by decide) _
  | none =>
    rw [renderPart, List.nil_append, structStart_eq]
    apply Refuses.named
    rcases isName_of_isTypeName hd.type with hreset | hname
    · -- the directive is a name up to its first dollar
      have hreset : d.type.toList = "reset".toList ++ ['$', '$'] := by rw [hreset]; decide
      have hsolid := fun rest => solid_mark (c := '$') (by decide) (by decide) rest
      have hname : IsName "reset".toList := 
        ⟨'r', ['e', 's', 'e', 't'], rfl, rfl, List.all_eq_true.mp rfl⟩
      rw [hreset, List.append_assoc]
      apply (reads_fieldName hname (head_mark (by decide) _)).maybe.bind_refuses
      apply (reads_no_spaces (hsolid _)).bind_refuses
      exact refuses_structBrace (hsolid _) (head_mark (by decide) _) _
    · apply (reads_fieldName hname fun c hc => (hstop c hc).1).maybe.bind_refuses
      apply hgap.bind_refuses
      exact hbrace _

/-- A field is read part by part. -/
theorem reads_fieldDecl (rest : List Char) :
    Reads fieldDecl (s.render (.field d) ++ rest) (.ok (.field d)) rest := by
  obtain ⟨hbounding, hbounding'⟩ := bounding_of_apart hapart rest
  -- From the end backwards: what a part may begin with bounds the part in front of it.
  have hend : ∀ c ∈ (renderPart String.toList s.behindName d.name ++ ';' :: rest).head?,
      Dense c ∧ c ≠ '[' ∧ c ≠ ':' := by
    refine head_namePart (p := fun c => Dense c ∧ c ≠ '[' ∧ c ≠ ':') ?_ hd.name
      (head_mark (by decide) rest)
    intro c hc
    exact ⟨not_isSeparator_of_isNameStart hc, (ne_of_isNameStart hc).1.1,
      (ne_of_isNameStart hc).2.2.2⟩
  have hsized : ∀ c ∈ (renderPart s.renderSize s.behindSize d.size ++
      (renderPart String.toList s.behindName d.name ++ ';' :: rest)).head?, Dense c ∧ c ≠ ':' :=
    head_sizePart (p := fun c => Dense c ∧ c ≠ ':') (by decide) fun c hc =>
      ⟨(hend c hc).1, (hend c hc).2.2⟩
  have htyped : ∀ c ∈ (d.type.toList ++ (Space.renderAll s.behindType ++
      behindType s d rest)).head?, Dense c ∧ c ≠ '<' ∧ c ≠ '>' := by
    refine head_typeName (p := fun c => Dense c ∧ c ≠ '<' ∧ c ≠ '>') ?_ hd.type _
    intro c hc
    exact ⟨not_isSeparator_of_isNameStart hc, (ne_of_isNameStart hc).2.1⟩
  obtain ⟨mid₁, horder, hgap₁⟩ := reads_orderPart hs d.order
    (solid_of_head fun c hc => (htyped c hc).1) fun c hc => (htyped c hc).2
  have htype := reads_typeName hd.type (not_isNamePart_behind hs.behindType hbounding)
  have hgap₂ := reads_spaces hs.behindType (solid_behindType s hd rest)
  obtain ⟨mid₃, hextra, hgap₃⟩ := reads_extraPart hs hd.extra
    (solid_of_head fun c hc => (hsized c hc).1) (fun c hc => (hsized c hc).2) hbounding'
  obtain ⟨mid₄, hsize, hgap₄⟩ := reads_sizePart hs hd.size
    (solid_of_head fun c hc => (hend c hc).1) fun c hc => (hend c hc).2.1
  have hlast : Solid (';' :: rest) := solid_mark (by decide) (by decide) rest
  have hmark : ∀ c ∈ (';' :: rest).head?, Bounding c := head_mark (by decide) rest
  obtain ⟨mid₅, hread, hgap₅⟩ := reads_namePart hs hd.name hlast hmark
  rw [render_field]
  apply Reads.named
  apply horder.bind
  apply hgap₁.bind
  apply htype.bind
  apply hgap₂.bind
  apply hextra.bind
  apply hgap₃.bind
  apply hsize.bind
  apply hgap₄.bind
  apply hread.bind
  apply hgap₅.bind
  have hfound := (reads_single ';' rest).bind_pure fun _ =>
    (Except.ok (.field d) : Except Error Declaration)
  rcases d with ⟨order, type, extra, size, name⟩
  cases extra <;> exact hfound

end

/-- A declaration other than a closing brace begins with something solid that is none. -/
theorem ne_closing_of_render (s : Setting) {decl : Declaration} (h : decl.Writable)
    (hdecl : decl ≠ .closing) (rest : List Char) :
    ∀ c ∈ (s.render decl ++ rest).head?, Dense c ∧ c ≠ '\x7d' := by
  have hname : ∀ c, isNameStart c = true → Dense c ∧ c ≠ '\x7d' := by
    intro c hc
    exact ⟨not_isSeparator_of_isNameStart hc, (ne_of_isNameStart hc).2.2.1⟩
  cases decl with
  | closing => exact absurd rfl hdecl
  | opening name size =>
    obtain ⟨hnames, -⟩ := h
    rw [Setting.render, List.append_assoc, List.append_assoc]
    apply head_namePart (p := fun c => Dense c ∧ c ≠ '\x7d') hname hnames
    apply head_sizePart (p := fun c => Dense c ∧ c ≠ '\x7d') (by decide)
    exact head_mark (by decide) rest
  | field d =>
    rw [render_field]
    cases horder : d.order with
    | some order => cases order <;> exact head_mark (by decide) _
    | none => exact head_typeName (p := fun c => Dense c ∧ c ≠ '\x7d') hname h.type _

/-- A declaration is not skipped as a gap. -/
theorem solid_declaration {decl : Declaration} (h : decl.Writable) (rest : List Char) : Solid (s.render decl ++ rest) := by
  by_cases hdecl : decl = .closing
  · subst hdecl
    exact solid_mark (by decide) (by decide) rest
  · exact solid_of_head fun c hc => (ne_closing_of_render s h hdecl rest c hc).1

/-- A written declaration is read. -/
theorem reads_declaration (hs : s.Fits) {decl : Declaration} (h : decl.Writable)
    (hapart : s.Apart decl) (rest : List Char) :
    Reads declaration (s.render decl ++ rest) (.ok decl) rest := by
  by_cases hdecl : decl = .closing
  · subst hdecl
    exact ((reads_structEnd rest).map Except.ok).orElse
  · have hclosing := refuses_structEnd fun c hc => (ne_closing_of_render s h hdecl rest c hc).2
    apply (hclosing.map Except.ok).orElse_reads
    cases decl with
    | closing => exact absurd rfl hdecl
    | opening name size => exact ((reads_structStart hs h rest).map Except.ok).orElse
    | field d =>
      have hrefuses := refuses_structStart_field hs h hapart rest
      exact (hrefuses.map Except.ok).orElse_reads (reads_fieldDecl hs h hapart rest)

end RecordLayout.Script.Scanner
