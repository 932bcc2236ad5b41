import RecordLayout.Proofs.Script.Declarations

/-!
# Written scripts are tokenized

Tokenizing undoes writing: whatever declarations a script is written from, and however they are set,
its tokens are these declarations, in order. A token also holds its text and its place, so only a part
of what the scanners give is known here: the part that is seen through a view.
-/

namespace RecordLayout.Script

namespace Scanner

variable {α β γ δ : Type} {s t : Scanner α} {f : α → Scanner β} {view : α → γ} {y : γ}
  {ys : List γ} {view' : β → δ} {z : δ} {input mid rest : List Char}

/-! ## Values seen through a view -/

/-- In front of these characters the scanner answers with a value of which this is seen, and leaves
the rest. -/
def Shows (view : α → γ) (s : Scanner α) (input : List Char) (y : γ) (rest : List Char) : Prop :=
  ∀ place attempts, ∃ x place' attempts', view x = y ∧
    s ⟨place, input⟩ attempts = (some (x, ⟨place', rest⟩), attempts')

theorem Reads.shows {x : α} (h : Reads s input x rest) (view : α → γ) :
    Shows view s input (view x) rest := by
  intro place attempts
  obtain ⟨place', attempts', h⟩ := h place attempts
  exact ⟨x, place', attempts', rfl, h⟩

theorem Reads.bind_shows {x : α} (h : Reads s input x mid) (h' : Shows view' (f x) mid z rest) :
    Shows view' (s >>= f) input z rest := by
  intro place attempts
  obtain ⟨place₁, attempts₁, h⟩ := h place attempts
  obtain ⟨w, place₂, attempts₂, hview, h'⟩ := h' place₁ attempts₁
  exact ⟨w, place₂, attempts₂, hview, (bind_of_some h).trans h'⟩

/-- What follows may depend on all of the value. -/
theorem Shows.bind (h : Shows view s input y mid)
    (h' : ∀ x, view x = y → Shows view' (f x) mid z rest) : Shows view' (s >>= f) input z rest := by
  intro place attempts
  obtain ⟨x, place₁, attempts₁, hview, h⟩ := h place attempts
  obtain ⟨w, place₂, attempts₂, hview', h'⟩ := h' x hview place₁ attempts₁
  exact ⟨w, place₂, attempts₂, hview', (bind_of_some h).trans h'⟩

theorem shows_get {f : Cursor → Scanner α} (h : ∀ place, Shows view (f ⟨place, input⟩) input y rest) :
    Shows view (get >>= f) input y rest := fun place attempts => h place place attempts

theorem Shows.orElse (h : Shows view s input y rest) : Shows view (s <|> t) input y rest := by
  intro place attempts
  obtain ⟨x, place₁, attempts₁, hview, h⟩ := h place attempts
  exact ⟨x, place₁, attempts₁, hview, orElse_of_some h⟩

theorem Shows.named (production : Production) (h : Shows view s input y rest) :
    Shows view (named production s) input y rest := by
  intro place attempts
  obtain ⟨x, place₁, attempts₁, hview, h⟩ := h place attempts
  exact ⟨x, place₁, attempts₁, hview, by simp only [Scanner.named, h]⟩

/-- Like `ReadsEach`, for values seen through a view. -/
inductive ShowsEach (view : α → γ) (s : Scanner α) : List Char → List γ → List Char → Prop
  | nil {rest : List Char} (last : Refuses s rest) : ShowsEach view s rest [] rest
  | cons {input mid rest : List Char} {y : γ} {ys : List γ} (first : Shows view s input y mid)
      (shorter : mid.length < input.length) (later : ShowsEach view s mid ys rest) :
      ShowsEach view s input (y :: ys) rest

/-- Values that are read one by one are shown in a list. -/
theorem ShowsEach.repeatUpTo (h : ShowsEach view s input ys rest) {limit : Nat}
    (hlimit : input.length < limit) : Shows (List.map view) (repeatUpTo s limit) input ys rest := by
  induction h generalizing limit with
  | nil last =>
    obtain ⟨limit, rfl⟩ : ∃ n, limit = n + 1 := ⟨limit - 1, by omega⟩
    exact (Refuses.orElse_reads (Refuses.bind last) (reads_pure [] _)).shows (List.map view)
  | @cons input mid rest y ys first shorter later ih =>
    obtain ⟨limit, rfl⟩ : ∃ n, limit = n + 1 := ⟨limit - 1, by omega⟩
    refine Shows.orElse (first.bind fun x hx => ?_)
    refine (ih (by omega)).bind fun xs hxs => ?_
    rw [← hx, ← hxs, ← List.map_cons]
    exact (reads_pure _ _).shows (List.map view)

theorem ShowsEach.many (h : ShowsEach view s input ys rest) :
    Shows (List.map view) (many s) input ys rest :=
  shows_get fun _ => h.repeatUpTo (Nat.lt_succ_self _)

/-- Values with gaps between. -/
theorem ShowsEach.manyApart (h : Shows view s input y mid)
    (h' : ShowsEach view (do gap; s) mid ys rest) :
    Shows (List.map view) (manyApart s) input (y :: ys) rest := by
  refine Shows.orElse (h.bind fun x hx => ?_)
  refine h'.many.bind fun xs hxs => ?_
  rw [← hx, ← hxs, ← List.map_cons]
  exact (reads_pure _ _).shows (List.map view)

/-! ## Tokens -/

/-- The declaration of a token. -/
def declared (found : Except Error Token) : Except Error Declaration :=
  found.map Token.declaration

/-- A token shows its declaration, whatever its text and its place. -/
theorem shows_token {d : Declaration} (h : Reads declaration input (.ok d) rest) :
    Shows declared token input (.ok d) rest := by
  apply shows_get
  intro start
  apply h.bind_shows
  apply shows_get
  intro stop
  exact (reads_pure _ _).shows declared

theorem head_nil {p : Char → Prop} : ∀ c ∈ ([] : List Char).head?, p c :=
  fun c hc => absurd hc (Option.not_mem_none c)

/-- There is no token at the end. -/
theorem refuses_token_nil : Refuses token [] := by
  have hstart : Refuses structStart [] := by
    rw [structStart_eq]
    apply Refuses.named
    apply (refuses_fieldName head_nil).maybe.bind_refuses
    apply (reads_no_spaces solid_nil).bind_refuses
    exact refuses_structBrace solid_nil head_nil none
  have hfield : Refuses fieldDecl [] := by
    apply Refuses.named
    apply (refuses_byteOrder head_nil).maybe.bind_refuses
    apply (reads_no_spaces solid_nil).bind_refuses
    apply Refuses.bind
    apply Refuses.named
    exact (refuses_word 'r' _ head_nil).bind.orElse (refuses_char head_nil).bind
  have hclosing : Refuses structEnd [] := refuses_structEnd head_nil
  have hdeclaration : Refuses declaration [] :=
    (hclosing.map Except.ok).orElse ((hstart.map Except.ok).orElse hfield)
  apply refuses_get
  intro place
  exact hdeclaration.bind

variable {ws : List Written} {w : Written} {last : List Space}

/-- The first token behind a gap. -/
theorem shows_written (h : w.Fits) (rest : List Char) :
    Shows declared token (w.setting.render w.declaration ++ rest) (.ok w.declaration) rest :=
  shows_token (reads_declaration h.setting h.writable h.apart rest)

theorem reads_gap_written (h : w.Fits) (rest : List Char) :
    Reads gap (Space.renderAll w.before ++ (w.setting.render w.declaration ++ rest)) ()
      (w.setting.render w.declaration ++ rest) :=
  reads_spaces h.before (solid_declaration h.writable rest)

/-- The gap at the end. -/
theorem reads_gap_last (h : Space.AllFit last) : Reads gap (Space.renderAll last) () [] := by
  have hgap := reads_spaces h solid_nil
  rwa [List.append_nil] at hgap

theorem render_ne_nil (s : Setting) (d : Declaration) : s.render d ≠ [] := by
  cases d <;> simp [Setting.render]

/-- The tokens of a written script, each behind its gap. -/
theorem showsEach_script (hws : ∀ w ∈ ws, w.Fits) (hlast : Space.AllFit last) :
    ShowsEach declared (do gap; token) (renderScript ws last)
      (ws.map fun w => .ok w.declaration) (Space.renderAll last) := by
  induction ws with
  | nil => exact .nil ((reads_gap_last hlast).bind_refuses refuses_token_nil)
  | cons w ws ih =>
    have hw := hws w List.mem_cons_self
    have hlater := ih fun w' hw' => hws w' (List.mem_cons_of_mem w hw')
    refine .cons ((reads_gap_written hw _).bind_shows (shows_written hw _)) ?_ hlater
    have hne := List.length_pos_of_ne_nil (render_ne_nil w.setting w.declaration)
    rw [renderScript, List.length_append, List.length_append]
    omega

/-- A written script is read to its end. -/
theorem shows_script (hws : ∀ w ∈ ws, w.Fits) (hlast : Space.AllFit last) :
    Shows (List.map declared) script (renderScript ws last)
      (ws.map fun w => .ok w.declaration) [] := by
  have hend : ∀ tokens : List (Except Error Token),
      Shows (List.map declared) (do gap; named .endOfInput atEnd; pure tokens)
        (Space.renderAll last) (tokens.map declared) [] := by
    intro tokens
    apply (reads_gap_last hlast).bind_shows
    apply (reads_atEnd.named .endOfInput).bind_shows
    exact (reads_pure _ _).shows (List.map declared)
  apply Shows.named
  cases ws with
  | nil =>
    apply (reads_gap_last hlast).bind_shows
    apply refuses_token_nil.manyApart.bind_shows
    apply (reads_no_spaces solid_nil).bind_shows
    apply (reads_atEnd.named .endOfInput).bind_shows
    exact (reads_pure _ _).shows (List.map declared)
  | cons w ws =>
    have hw := hws w List.mem_cons_self
    have hlater := showsEach_script (fun w' hw' => hws w' (List.mem_cons_of_mem w hw')) hlast
    apply (reads_gap_written hw _).bind_shows
    refine (hlater.manyApart (shows_written hw _)).bind fun tokens htokens => ?_
    rw [List.map_cons, ← htokens]
    exact hend tokens

end Scanner

/-- The tokens, if none is faulty. -/
theorem mapM_of_declared {ds : List Declaration} {found : List (Except Error Token)}
    (h : found.map Scanner.declared = ds.map .ok) :
    ∃ tokens, found.mapM id = .ok tokens ∧ tokens.map Token.declaration = ds := by
  induction found generalizing ds with
  | nil =>
    cases ds with
    | nil => exact ⟨[], rfl, rfl⟩
    | cons d ds => cases h
  | cons first found ih =>
    cases ds with
    | nil => cases h
    | cons d ds =>
      obtain ⟨hfirst, hfound⟩ := List.cons.inj h
      obtain ⟨tokens, hmap, hds⟩ := ih hfound
      cases first with
      | error e => cases hfirst
      | ok token =>
        refine ⟨token :: tokens, ?_, ?_⟩
        · rw [List.mapM_cons, hmap]
          rfl
        · rw [List.map_cons, hds, Except.ok.inj hfirst]

/-- Tokenizing undoes writing. -/
theorem tokenize_renderScript {ws : List Written} {last : List Space} (hws : ∀ w ∈ ws, w.Fits)
    (hlast : Space.AllFit last) :
    ∃ tokens, tokenize (String.ofList (renderScript ws last)) = .ok tokens ∧
      tokens.map Token.declaration = ws.map Written.declaration := by
  obtain ⟨found, place, attempts, hview, hscript⟩ :=
    Scanner.shows_script hws hlast .start Attempts.none
  have hfound : found.map Scanner.declared = (ws.map Written.declaration).map .ok := by
    rw [hview, List.map_map]
    rfl
  obtain ⟨tokens, htokens, hdeclared⟩ := mapM_of_declared hfound
  refine ⟨tokens, ?_, hdeclared⟩
  rw [tokenize, Scanner.answer, Cursor.ofString, String.toList_ofList, hscript]
  exact htokens

/-- A field behind a comment, and a structure without a name. -/
def sampleWritten : List Written :=
  [⟨[.line [' ', 'a']],
      { behindExtra := [.separator ' '], behindSize := [.block ['*']], sizeBack := ['\t'] },
      .field ⟨some .little, "bit", some (.number 3), some (.expression "n*2"), some "f"⟩⟩,
    ⟨[.separator '\n'], {}, .opening none (some .unbounded)⟩,
    ⟨[], {}, .closing⟩]

/-- The text of the sample. -/
theorem tokenize_sampleWritten :
    String.ofList (renderScript sampleWritten [.separator ' ']) =
        "// a\n<bit:3 [n*2\t]/***/f;\n[_]\x7b\x7d " ∧
      ∃ tokens, tokenize "// a\n<bit:3 [n*2\t]/***/f;\n[_]\x7b\x7d " = .ok tokens ∧
        tokens.map Token.declaration =
          [.field ⟨some .little, "bit", some (.number 3), some (.expression "n*2"), some "f"⟩,
            .opening none (some .unbounded), .closing] := by
  have hrender : String.ofList (renderScript sampleWritten [.separator ' ']) =
      "// a\n<bit:3 [n*2\t]/***/f;\n[_]\x7b\x7d " := by cbv
  have hnone : ∀ c ∈ ([] : List Char), Text.isSeparator c = true :=
    fun c hc => absurd hc List.not_mem_nil
  have hblank : Space.AllFit [] := Space.allFit_nil
  have htext : IsText "n*2".toList :=
    ⟨by decide, by simp [Balanced], by simp [endsText]⟩
  have hfield : FieldDecl.Writable
      ⟨some .little, "bit", some (.number 3), some (.expression "n*2"), some "f"⟩ := by
    refine ⟨.inr ⟨'b', ['i', 't'], rfl, rfl, by simp [isNamePart, Char.isAlphanum]⟩, ?_, ?_, ?_⟩
    · rintro extra ⟨⟩
      trivial
    · rintro size ⟨⟩
      exact ⟨htext, by decide, by decide⟩
    · rintro name ⟨⟩
      exact ⟨'f', [], rfl, rfl, fun c hc => absurd hc List.not_mem_nil⟩
  have hfits : ∀ w ∈ sampleWritten, w.Fits := by
    intro w hw
    simp only [sampleWritten, List.mem_cons, List.not_mem_nil, or_false] at hw
    rcases hw with rfl | rfl | rfl
    · refine ⟨by simp [Space.AllFit, Space.Fits], ?_, trivial, hfield⟩
      exact ⟨hblank, hblank, by simp [Space.AllFit, Space.Fits, Text.isSeparator],
        by simp [Space.AllFit, Space.Fits, List.infix_cons_iff], hblank, hnone, hnone, hnone,
        by simp [Text.isSeparator]⟩
    · refine ⟨by simp [Space.AllFit, Space.Fits, Text.isSeparator], ?_, trivial, ?_, ?_⟩
      · exact ⟨hblank, hblank, hblank, hblank, hblank, hnone, hnone, hnone, hnone⟩
      · intro name hname
        cases hname
      · rintro size ⟨⟩
        trivial
    · exact ⟨hblank, ⟨hblank, hblank, hblank, hblank, hblank, hnone, hnone, hnone, hnone⟩, trivial,
        trivial⟩
  have hlast : Space.AllFit [.separator ' '] := by
    simp [Space.AllFit, Space.Fits, Text.isSeparator]
  have htokens := tokenize_renderScript hfits hlast
  rw [hrender] at htokens
  exact ⟨hrender, htokens⟩

end RecordLayout.Script
