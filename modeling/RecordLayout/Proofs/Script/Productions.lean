import RecordLayout.Proofs.Script.Rendering

/-!
# The productions of declarations

What each production of the script grammar reads of a declaration as it may be written, and what it
refuses. The order of the alternatives matters in three places: a field is first tried as the opening
of a structure, a length first as the mark of an unbounded array, and a type first as the directive
that starts counters again. Each time the first alternative goes as far as the text allows and then
refuses.
-/

namespace RecordLayout.Script.Scanner

variable {α β : Type} {s : Scanner α} {x : α} {input mid rest : List Char} {c : Char}

/-! ## Combinations -/

theorem Reads.map (h : Reads s input x rest) (g : α → β) : Reads (g <$> s) input (g x) rest := by
  intro place attempts
  obtain ⟨place', attempts', h⟩ := h place attempts
  exact ⟨place', attempts', bind_of_some (f := fun a => pure (g a)) h⟩

theorem Refuses.map (h : Refuses s input) (g : α → β) : Refuses (g <$> s) input :=
  Refuses.bind (f := fun a => pure (g a)) h

theorem Reads.maybe (h : Reads s input x rest) : Reads (maybe s) input (some x) rest :=
  (h.map some).orElse

theorem Refuses.maybe (h : Refuses s input) : Reads (maybe s) input none input :=
  (h.map some).orElse_reads (reads_pure none input)

theorem reads_single (c : Char) (rest : List Char) : Reads (symbol c) (c :: rest) () rest :=
  (reads_char (p := (· == c)) (beq_self_eq_true c) rest).bind_pure fun _ => ()

theorem refuses_single (h : ∀ d ∈ input.head?, d ≠ c) : Refuses (symbol c) input :=
  Refuses.bind (refuses_char fun d hd => beq_eq_false_iff_ne.mpr (h d hd))

/-- A word that the text does not begin with is refused. -/
theorem refuses_word_of_not_prefix {w : List Char} (h : ¬ w <+: input) : Refuses (word w) input := by
  induction w generalizing input with
  | nil => exact absurd List.nil_prefix h
  | cons c w ih =>
    cases input with
    | nil => exact refuses_word c w nofun
    | cons d input =>
      by_cases hd : d = c
      · subst hd
        have hrest : ¬ w <+: input := fun hw => h (List.cons_prefix_cons.mpr ⟨rfl, hw⟩)
        exact (reads_char (p := (· == d)) (beq_self_eq_true d) input).bind_refuses (ih hrest)
      · apply refuses_word
        rintro e ⟨⟩
        exact hd

theorem refuses_next {p : Char → Bool} (h : ∀ c ∈ input.head?, p c = false) :
    Refuses (next p) input := by
  intro place attempts
  refine ⟨attempts, ?_⟩
  cases input with
  | nil => rfl
  | cons c rest =>
    simp only [next, h c rfl, Bool.false_eq_true, if_false]
    rfl

theorem reads_next {p : Char → Bool} (h : p c = true) (rest : List Char) :
    Reads (next p) (c :: rest) () (c :: rest) := by
  intro place attempts
  refine ⟨place, attempts, ?_⟩
  simp only [next, h, if_true]
  rfl

/-! ## What comes next -/

theorem not_isSeparator_of_isNameStart (h : isNameStart c = true) :
    Text.isSeparator c = false ∧ c ≠ '/' := by
  constructor
  · rw [Bool.eq_false_iff]
    intro hseparator
    simp only [Text.isSeparator, Bool.or_eq_true, beq_iff_eq] at hseparator
    rcases hseparator with ((rfl | rfl) | rfl) | rfl <;> exact absurd h (by decide)
  · rintro rfl
    exact absurd h (by decide)

theorem not_isNamePart_of_isSeparator (h : Text.isSeparator c = true) : isNamePart c = false := by
  simp only [Text.isSeparator, Bool.or_eq_true, beq_iff_eq] at h
  rcases h with ((rfl | rfl) | rfl) | rfl <;> decide

theorem solid_mark (hseparator : Text.isSeparator c = false) (hslash : c ≠ '/') (rest : List Char) :
    Solid (c :: rest) := solid_cons hseparator fun hc => absurd hc hslash

/-- What begins with neither a separator nor a slash is solid. -/
theorem solid_of_head (h : ∀ c ∈ input.head?, Text.isSeparator c = false ∧ c ≠ '/') :
    Solid input := by
  cases input with
  | nil => exact solid_nil
  | cons c rest =>
    obtain ⟨hseparator, hslash⟩ := h c rfl
    exact solid_mark hseparator hslash rest

/-! ## Single lexemes -/

theorem reads_byteOrder (order : ByteOrder) (rest : List Char) :
    Reads byteOrder (orderMark order ++ rest) order rest := by
  apply Reads.named
  cases order with
  | little => exact ((reads_single '<' rest).bind_pure fun _ => ByteOrder.little).orElse
  | big =>
    have hless : Refuses (symbol '<') ('>' :: rest) := refuses_single (by rintro d ⟨⟩; decide)
    have hgreater := (reads_single '>' rest).bind_pure fun _ => ByteOrder.big
    exact hless.bind.orElse_reads hgreater

theorem refuses_byteOrder (h : ∀ c ∈ input.head?, c ≠ '<' ∧ c ≠ '>') : Refuses byteOrder input := by
  apply Refuses.named
  have hless : Refuses (symbol '<') input := refuses_single fun d hd => (h d hd).1
  have hgreater : Refuses (symbol '>') input := refuses_single fun d hd => (h d hd).2
  exact hless.bind.orElse hgreater.bind

theorem isNameStart_of_isAlpha (h : c.isAlpha = true) : isNameStart c = true := by
  rw [isNameStart, h, Bool.true_or]

/-- The name of a type that is no directive is a name. -/
theorem isName_of_isTypeName {type : String} (h : IsTypeName type) :
    type = "reset$$" ∨ IsName type.toList := by
  rcases h with h | ⟨c, more, htype, hc, hmore⟩
  · exact .inl h
  · exact .inr ⟨c, more, htype, isNameStart_of_isAlpha hc, hmore⟩

/-- The characters of a name end where no part of a name follows. -/
theorem takeWhile_name {text : List Char} (htext : ∀ c ∈ text, isNamePart c = true)
    (hrest : ∀ c ∈ rest.head?, isNamePart c = false) :
    (text ++ rest).takeWhile isNamePart = text := by
  rw [List.takeWhile_append_of_pos htext]
  cases rest with
  | nil => rw [List.takeWhile_nil, List.append_nil]
  | cons c rest =>
    rw [List.takeWhile_cons_of_neg (by simp [hrest c rfl]), List.append_nil]

/-- A name is not taken for the directive, as no dollar follows it. -/
theorem not_reset_start {text : List Char} (htext : ∀ c ∈ text, isNamePart c = true)
    (hrest : ∀ c ∈ rest.head?, isNamePart c = false ∧ c ≠ '$') :
    ¬ "reset$$".toList <+: text ++ rest := by
  rintro ⟨more, hmore⟩
  have hword : "reset$$".toList = ['r', 'e', 's', 'e', 't'] ++ ['$', '$'] := by decide
  have hreset : ∀ c ∈ ['r', 'e', 's', 'e', 't'], isNamePart c = true :=
    List.all_eq_true.mp rfl
  have hdollar : ∀ c ∈ (['$', '$'] ++ more).head?, isNamePart c = false := by
    rintro c ⟨⟩
    decide
  rw [hword, List.append_assoc] at hmore
  have htake := congrArg (List.takeWhile isNamePart) hmore
  rw [takeWhile_name hreset hdollar, takeWhile_name htext fun c hc => (hrest c hc).1] at htake
  rw [← htake] at hmore
  have hrest' := List.append_cancel_left hmore
  rw [← hrest'] at hrest
  exact (hrest '$' rfl).2 rfl

/-- A type is read as it is written, if no part of a name follows. -/
theorem reads_typeName {type : String} (h : IsTypeName type)
    (hrest : ∀ c ∈ rest.head?, isNamePart c = false ∧ c ≠ '$') :
    Reads typeName (type.toList ++ rest) type rest := by
  apply Reads.named
  rcases h with rfl | ⟨c, more, htype, hc, hmore⟩
  · exact ((reads_word "reset$$".toList rest).bind_pure fun _ => "reset$$").orElse
  · have hparts : ∀ d ∈ type.toList, isNamePart d = true := by
      rw [htype]
      intro d hd
      rcases List.mem_cons.mp hd with rfl | hd
      · exact isNamePart_of_isNameStart (isNameStart_of_isAlpha hc)
      · exact hmore d hd
    have hword := refuses_word_of_not_prefix (not_reset_start hparts hrest)
    refine hword.bind.orElse_reads ?_
    have hspan := reads_span hmore fun d hd => (hrest d hd).1
    have hname := hspan.bind_pure fun more => String.ofList (c :: more)
    rw [← htype, String.ofList_toList] at hname
    rw [htype]
    exact (reads_char hc _).bind hname

theorem reads_fieldName {name : String} (h : IsName name.toList)
    (hrest : ∀ c ∈ rest.head?, isNamePart c = false) :
    Reads fieldName (name.toList ++ rest) name rest := by
  have hread := h.reads hrest
  rw [String.ofList_toList] at hread
  exact hread.named .fieldName

theorem refuses_fieldName (h : ∀ c ∈ input.head?, isNameStart c = false) :
    Refuses fieldName input := (refuses_name h).named .fieldName

/-! ## Parameters -/

/-- Balanced text is read up to the bracket or the mark that ends it. -/
theorem reads_balanced {text : List Char} (h : Balanced 0 text)
    (hplain : ∀ c ∈ text, endsText c = false)
    (hrest : ∃ c more, rest = c :: more ∧ (c = ')' ∨ c ≠ '(' ∧ endsText c = true)) :
    Reads balanced (text ++ rest) text rest := by
  intro place attempts
  refine ⟨place.after text, attempts, ?_⟩
  obtain ⟨opened, hskip⟩ := skipBalanced_of_balanced h hplain ⟨place, text ++ rest⟩ place rest
  have hstop : skipBalanced 0 opened (place.after text) rest = ⟨place.after text, rest⟩ := by
    obtain ⟨c, more, rfl, rfl | ⟨hopen, hends⟩⟩ := hrest
    · rfl
    · by_cases hclose : c = ')'
      · rw [skipBalanced, if_neg hopen, if_pos hclose, if_pos rfl]
      · rw [skipBalanced, if_neg hopen, if_neg hclose, if_pos hends, if_pos rfl]
  have htake : (text ++ rest).take ((text ++ rest).length - rest.length) = text := by
    rw [List.length_append, Nat.add_sub_cancel, List.take_left]
  simp only [balanced, hskip, hstop, Cursor.upTo, htake]
  rfl

theorem decimalValue_toString (n : Nat) : decimalValue (toString n).toList = n := by
  have hdigits : (toString n).toList = Nat.toDigits 10 n := Nat.toList_repr
  have hvalue : decimalValue (Nat.toDigits 10 n) = Nat.ofDigitChars 10 (Nat.toDigits 10 n) 0 := by
    rw [decimalValue, Nat.ofDigitChars]
  rw [hdigits, hvalue, Nat.ofDigitChars_ten_toDigits]

/-- A number that fits is read wherever it stands. -/
theorem ofDigits_toString (n : UInt32) (position : Position) :
    Extra.ofDigits (toString n.toNat) position = .ok (.number n) := by
  have hlt : n.toNat < 2 ^ 32 := n.toNat_lt
  simp only [Extra.ofDigits, decimalValue_toString, if_pos hlt, UInt32.ofNat_toNat]

theorem isBlank_of_separators {text : List Char} (h : ∀ c ∈ text, Text.isSeparator c = true) :
    ∀ c ∈ text, Text.isBlank c = true := fun c hc => Text.isBlank_of_isSeparator (h c hc)

/-- Separators are no parentheses and do not end a text. -/
theorem separator_plain (h : Text.isSeparator c = true) :
    (c ≠ '(' ∧ c ≠ ')') ∧ endsText c = false := by
  simp only [Text.isSeparator, Bool.or_eq_true, beq_iff_eq] at h
  rcases h with ((rfl | rfl) | rfl) | rfl <;> decide

/-- An expression in brackets is read without the gaps around it. -/
theorem reads_extraExpr {s : Setting} (hs : s.Fits) {text : String} (h : IsText text.toList)
    (rest : List Char) :
    Reads extraExpr ('(' :: (s.extraFront ++ (text.toList ++ (s.extraBack ++ [')']))) ++ rest)
      (.expression text) rest := by
  have hinput : '(' :: (s.extraFront ++ (text.toList ++ (s.extraBack ++ [')']))) ++ rest =
      '(' :: ((s.extraFront ++ (text.toList ++ s.extraBack)) ++ ')' :: rest) := by simp
  have hbalanced : Balanced 0 (s.extraFront ++ (text.toList ++ s.extraBack)) := by
    apply balanced_of_append fun c hc => (separator_plain (hs.extraFront c hc)).1
    exact balanced_append (fun c hc => (separator_plain (hs.extraBack c hc)).1) h.balanced
  have hplain : ∀ c ∈ s.extraFront ++ (text.toList ++ s.extraBack), endsText c = false := by
    intro c hc
    rcases List.mem_append.mp hc with hc | hc
    · exact (separator_plain (hs.extraFront c hc)).2
    rcases List.mem_append.mp hc with hc | hc
    · exact (h.plain c hc).1
    · exact (separator_plain (hs.extraBack c hc)).2
  have htrim : Text.trim (s.extraFront ++ (text.toList ++ s.extraBack)) = text.toList := by
    rw [trim_append (isBlank_of_separators hs.extraFront) (isBlank_of_separators hs.extraBack)]
    exact h.trimmed
  rw [hinput]
  apply Reads.named
  apply (reads_single '(' _).bind
  apply (reads_balanced hbalanced hplain ⟨')', rest, rfl, .inl rfl⟩).bind
  rw [htrim, String.ofList_toList]
  exact (reads_single ')' rest).bind_pure fun _ => Extra.expression text

/-- A number is written with digits. -/
theorem exists_digits (n : Nat) :
    ∃ c more, (toString n).toList = c :: more ∧ c.isDigit = true ∧ ∀ d ∈ more, d.isDigit = true := by
  have hlist : (toString n).toList = Nat.toDigits 10 n := Nat.toList_repr
  have hdigits : ∀ c ∈ (toString n).toList, c.isDigit = true := by
    intro c hc
    rw [hlist] at hc
    exact Nat.isDigit_of_mem_toDigits (by decide) (by decide) hc
  have hne : (toString n).toList ≠ [] := by
    rw [hlist]
    exact Nat.toDigits_ne_nil
  obtain ⟨c, more, htext⟩ := List.exists_cons_of_ne_nil hne
  rw [htext] at hdigits
  exact ⟨c, more, htext, hdigits c List.mem_cons_self,
    fun d hd => hdigits d (List.mem_cons_of_mem c hd)⟩

/-- The digits of a number are read, if no part of a name follows. -/
theorem reads_extraDigits (n : Nat) (hrest : ∀ c ∈ rest.head?, isNamePart c = false) :
    Reads extraDigits ((toString n).toList ++ rest) (toString n) rest := by
  obtain ⟨c, more, htext, hc, hmore⟩ := exists_digits n
  have hstop : ∀ c ∈ rest.head?, c.isDigit = false := by
    intro c hc
    rw [Bool.eq_false_iff]
    intro hdigit
    have hpart := hrest c hc
    rw [isNamePart_of_isDigit hdigit] at hpart
    cases hpart
  have hname : ∀ c ∈ rest.head?, isNameStart c = false := by
    intro c hc
    rw [Bool.eq_false_iff]
    intro hstart
    have hpart := hrest c hc
    rw [isNamePart_of_isNameStart hstart] at hpart
    cases hpart
  have hspan := reads_span1 hc hmore hstop
  rw [← htext] at hspan
  apply Reads.named
  apply hspan.bind
  rw [String.ofList_toList]
  exact (reads_notNext hname).bind_pure fun _ => toString n

/-- A parameter is read. Behind a number no name may follow directly. -/
theorem reads_typeExtra {s : Setting} (hs : s.Fits) {extra : Extra} (h : extra.Writable)
    (hrest : ∀ n, extra = .number n → ∀ c ∈ rest.head?, isNamePart c = false) :
    Reads typeExtra (s.renderExtra extra ++ rest) (.ok extra) rest := by
  apply reads_get
  intro place
  apply Reads.named
  cases extra with
  | expression text =>
    apply (reads_single ':' _).bind
    exact ((reads_extraExpr hs h rest).bind_pure Except.ok).orElse
  | number n =>
    apply (reads_single ':' _).bind
    have hdigits := reads_extraDigits n.toNat (hrest n rfl)
    have hread := hdigits.bind_pure fun digits => Extra.ofDigits digits place
    rw [ofDigits_toString] at hread
    refine Refuses.orElse_reads (Refuses.bind ?_) hread
    apply Refuses.named
    apply Refuses.bind
    apply refuses_single
    obtain ⟨c, more, htext, hc, -⟩ := exists_digits n.toNat
    rw [htext]
    rintro d ⟨⟩ rfl
    exact absurd hc (by decide)

theorem refuses_typeExtra (h : ∀ c ∈ input.head?, c ≠ ':') : Refuses typeExtra input := by
  intro place attempts
  have hmark : Refuses (symbol ':') input := refuses_single h
  exact hmark.bind.named .typeExtra place attempts

/-! ## Lengths -/

/-- The mark of an unbounded array, which the bracket follows. -/
def unboundedMark : Scanner Size :=
  named .unbounded (do symbol '_'; gap; next (· == ']'); pure Size.unbounded)

/-- The text of a length. -/
def sizeText : Scanner Size :=
  named .sizeText do
    let text ← balanced1
    pure (Size.expression (String.ofList (Text.trim text)))

theorem arraySize_eq :
    arraySize = named .arraySize (do
      symbol '['
      gap
      let size ← unboundedMark <|> sizeText
      gap
      symbol ']'
      pure size) := rfl

theorem solid_bracket (rest : List Char) : Solid (']' :: rest) :=
  solid_mark (by decide) (by decide) rest

/-- The mark of an unbounded array is read with the gap behind it. -/
theorem reads_unboundedMark {back : List Char} (h : ∀ c ∈ back, Text.isSeparator c = true)
    (rest : List Char) :
    Reads unboundedMark ('_' :: (back ++ ']' :: rest)) .unbounded (']' :: rest) := by
  apply Reads.named
  apply (reads_single '_' _).bind
  apply (reads_gap h (solid_bracket rest)).bind
  exact (reads_next (by decide) rest).bind_pure fun _ => Size.unbounded

/-- Behind an underscore that only begins a text, the bracket does not come next. -/
theorem refuses_bracket {more : List Char} (hlast : ∀ c ∈ more.getLast?, Text.isBlank c = false)
    (hne : more ≠ []) (hplain : ∀ c ∈ more, endsText c = false ∧ c ≠ '/') (rest : List Char) :
    Refuses (do gap; next (· == ']'); pure Size.unbounded) (more ++ rest) := by
  have hsplit := List.takeWhile_append_dropWhile (p := Text.isSeparator) (l := more)
  have hseparators : ∀ c ∈ more.takeWhile Text.isSeparator, Text.isSeparator c = true := by
    intro c hc
    exact List.mem_takeWhile_imp hc
  have hhead := List.head?_dropWhile_not Text.isSeparator more
  generalize more.takeWhile Text.isSeparator = front at hsplit hseparators
  generalize more.dropWhile Text.isSeparator = behind at hsplit hhead
  cases behind with
  | nil =>
    -- the last character would be a separator
    rw [List.append_nil] at hsplit
    subst hsplit
    have hmem := List.getLast_mem hne
    have hblank := hlast _ (List.getLast?_eq_some_getLast hne)
    rw [Text.isBlank_of_isSeparator (hseparators _ hmem)] at hblank
    cases hblank
  | cons c behind =>
    have hc : Text.isSeparator c = false := by simpa using hhead
    obtain ⟨hends, hslash⟩ := hplain c (by rw [← hsplit]; simp)
    have hgap := reads_gap hseparators (solid_mark hc hslash (behind ++ rest))
    rw [← List.cons_append, ← List.append_assoc, hsplit] at hgap
    apply hgap.bind_refuses
    apply Refuses.bind
    apply refuses_next
    rintro d ⟨⟩
    rw [beq_eq_false_iff_ne]
    rintro rfl
    exact absurd hends (by decide)

section

variable {text : String} (h : IsText text.toList) (hempty : text ≠ "")
include h hempty

/-- A text is not skipped as a gap. -/
theorem solid_text (rest : List Char) : Solid (text.toList ++ rest) := by
  have hne : text.toList ≠ [] := fun h => hempty (String.toList_eq_nil_iff.mp h)
  apply solid_of_head
  rw [List.head?_append_of_ne_nil _ hne]
  intro c hc
  have hblank := not_isBlank_head h.trimmed c hc
  refine ⟨?_, (h.plain c (List.mem_of_mem_head? hc)).2⟩
  rw [Bool.eq_false_iff]
  intro hseparator
  rw [Text.isBlank_of_isSeparator hseparator] at hblank
  cases hblank

/-- A text other than an underscore is not taken for the mark of an unbounded array. -/
theorem refuses_unboundedMark (hunderscore : text ≠ "_") (rest : List Char) :
    Refuses unboundedMark (text.toList ++ rest) := by
  have hne : text.toList ≠ [] := fun h => hempty (String.toList_eq_nil_iff.mp h)
  obtain ⟨c, more, hcons⟩ := List.exists_cons_of_ne_nil hne
  apply Refuses.named
  rw [hcons]
  by_cases hc : c = '_'
  · subst hc
    have hmore : more ≠ [] := by
      rintro rfl
      exact hunderscore (String.toList_inj.mp hcons)
    have hlast : ∀ d ∈ more.getLast?, Text.isBlank d = false := by
      intro d hd
      apply not_isBlank_last h.trimmed
      rw [hcons, List.getLast?_cons]
      simp [Option.mem_def.mp hd]
    have hplain : ∀ d ∈ more, endsText d = false ∧ d ≠ '/' := by
      intro d hd
      exact h.plain d (by rw [hcons]; exact List.mem_cons_of_mem _ hd)
    exact (reads_single '_' _).bind_refuses (refuses_bracket hlast hmore hplain rest)
  · apply Refuses.bind
    apply refuses_single
    rintro d ⟨⟩
    exact hc

/-- Any other text up to the bracket is read as an expression. -/
theorem reads_sizeText {back : List Char} (hback : ∀ c ∈ back, Text.isSeparator c = true)
    (rest : List Char) :
    Reads sizeText (text.toList ++ (back ++ ']' :: rest)) (.expression text) (']' :: rest) := by
  have hne : text.toList ≠ [] := fun h => hempty (String.toList_eq_nil_iff.mp h)
  have hbalanced : Balanced 0 (text.toList ++ back) :=
    balanced_append (fun c hc => (separator_plain (hback c hc)).1) h.balanced
  have hplain : ∀ c ∈ text.toList ++ back, endsText c = false := by
    intro c hc
    rcases List.mem_append.mp hc with hc | hc
    · exact (h.plain c hc).1
    · exact (separator_plain (hback c hc)).2
  have hread := reads_balanced hbalanced hplain ⟨']', rest, rfl, .inr (by decide)⟩
  have hread1 : Reads balanced1 (text.toList ++ back ++ ']' :: rest) (text.toList ++ back)
      (']' :: rest) := by
    apply hread.bind
    have hnonempty : (text.toList ++ back).isEmpty = false := by simp [hne]
    rw [hnonempty]
    exact reads_pure _ _
  have htrim : Text.trim (text.toList ++ back) = text.toList :=
    (trim_append (fun _ hc => absurd hc List.not_mem_nil) (isBlank_of_separators hback)).trans
      h.trimmed
  have hsize := hread1.bind_pure fun text => Size.expression (String.ofList (Text.trim text))
  rw [htrim, String.ofList_toList, List.append_assoc] at hsize
  exact hsize.named .sizeText

end

/-- The size of an array is read up to its bracket. -/
theorem reads_arraySize {s : Setting} (hs : s.Fits) {size : Size} (h : size.Writable)
    (rest : List Char) : Reads arraySize (s.renderSize size ++ rest) size rest := by
  rw [arraySize_eq]
  apply Reads.named
  have hend : Reads (do gap; symbol ']'; pure size) (']' :: rest) size rest :=
    (reads_no_spaces (solid_bracket rest)).seq ((reads_single ']' rest).bind_pure fun _ => size)
  cases size with
  | unbounded =>
    have hinput : s.renderSize .unbounded ++ rest =
        '[' :: (s.sizeFront ++ ('_' :: (s.sizeBack ++ ']' :: rest))) := by simp [Setting.renderSize]
    have hsolid := solid_mark (c := '_') (by decide) (by decide) (s.sizeBack ++ ']' :: rest)
    rw [hinput]
    apply (reads_single '[' _).bind
    apply (reads_gap hs.sizeFront hsolid).bind
    exact (reads_unboundedMark hs.sizeBack rest).orElse.bind hend
  | expression text =>
    obtain ⟨htext, hempty, hunderscore⟩ := h
    have hinput : s.renderSize (.expression text) ++ rest =
        '[' :: (s.sizeFront ++ (text.toList ++ (s.sizeBack ++ ']' :: rest))) := by
      simp [Setting.renderSize]
    have hmark := refuses_unboundedMark htext hempty hunderscore (s.sizeBack ++ ']' :: rest)
    rw [hinput]
    apply (reads_single '[' _).bind
    apply (reads_gap hs.sizeFront (solid_text htext hempty _)).bind
    exact (hmark.orElse_reads (reads_sizeText htext hempty hs.sizeBack rest)).bind hend

theorem refuses_arraySize (h : ∀ c ∈ input.head?, c ≠ '[') : Refuses arraySize input :=
  (Refuses.bind (refuses_single h)).named .arraySize

end RecordLayout.Script.Scanner
