import RecordLayout.Expr.Term.Scan
import RecordLayout.Proofs.Script.Scanning

/-!
# The productions of expressions

What each production of the grammar reads. A numeral, a name or a counter is read whole because the
text behind it cannot go on with it (`Bounded`), and no earlier alternative reads a part of it.
-/

namespace RecordLayout.Script.Scanner

variable {input rest mid : List Char} {inner : Scanner Term} {t : Term}

/-! ## Classes of characters -/

theorem isDigit_of_isNameStart {c : Char} (h : isNameStart c = true) : c.isDigit = false := by
  simp only [isNameStart, Char.isAlpha, Char.isUpper, Char.isLower, Char.isDigit, Bool.or_eq_true,
    Bool.and_eq_true, decide_eq_true_eq, beq_iff_eq, Bool.and_eq_false_iff,
    decide_eq_false_iff_not] at h ⊢
  rcases h with (h | h) | rfl
  · grind
  · grind
  · decide

theorem isNamePart_of_isNameStart {c : Char} (h : isNameStart c = true) : isNamePart c = true := by
  simp only [isNameStart, isNamePart, Char.isAlphanum, Bool.or_eq_true] at h ⊢
  exact h.imp_left Or.inl

theorem isNamePart_of_isDigit {c : Char} (h : c.isDigit = true) : isNamePart c = true := by
  simp only [isNamePart, Char.isAlphanum, h, Bool.or_true, Bool.true_or]

theorem isNamePart_of_isHexDigit {c : Char} (h : isHexDigit c = true) : isNamePart c = true := by
  simp only [isNamePart, isHexDigit, Char.isAlphanum, Char.isAlpha, Char.isUpper, Char.isLower,
    Char.isDigit, Bool.or_eq_true, Bool.and_eq_true, decide_eq_true_eq, beq_iff_eq,
    Char.le_def] at h ⊢
  grind

/-- The text does not go on with a numeral, a name or a mark of the counter. -/
def Bounded (rest : List Char) : Prop :=
  ∀ c ∈ rest.head?, isNamePart c = false ∧ c ≠ '.' ∧ c ≠ '$'

namespace Bounded

theorem nil : Bounded [] := fun _ h => nomatch h

/-- A character of punctuation bounds what stands before it. -/
theorem cons {c : Char} (h : isNamePart c = false) (hdot : c ≠ '.') (hmark : c ≠ '$') :
    Bounded (c :: rest) := by
  rintro d ⟨⟩
  exact ⟨h, hdot, hmark⟩

theorem namePart (h : Bounded rest) : ∀ c ∈ rest.head?, isNamePart c = false :=
  fun c hc => (h c hc).1

theorem nameStart (h : Bounded rest) : ∀ c ∈ rest.head?, isNameStart c = false :=
  fun c hc => Bool.eq_false_iff.mpr fun hstart =>
    Bool.eq_false_iff.mp (h.namePart c hc) (isNamePart_of_isNameStart hstart)

theorem digit (h : Bounded rest) : ∀ c ∈ rest.head?, c.isDigit = false :=
  fun c hc => Bool.eq_false_iff.mpr fun hdigit =>
    Bool.eq_false_iff.mp (h.namePart c hc) (isNamePart_of_isDigit hdigit)

theorem hexDigit (h : Bounded rest) : ∀ c ∈ rest.head?, isHexDigit c = false :=
  fun c hc => Bool.eq_false_iff.mpr fun hdigit =>
    Bool.eq_false_iff.mp (h.namePart c hc) (isNamePart_of_isHexDigit hdigit)

theorem dot (h : Bounded rest) : ∀ c ∈ rest.head?, c ≠ '.' := fun c hc => (h c hc).2.1

theorem mark (h : Bounded rest) : ∀ c ∈ rest.head?, c ≠ '$' := fun c hc => (h c hc).2.2

end Bounded

/-! ## Names -/

/-- A letter or an underscore and then letters, digits and underscores. -/
def IsName (text : List Char) : Prop :=
  ∃ c more, text = c :: more ∧ isNameStart c = true ∧ ∀ d ∈ more, isNamePart d = true

/-- A name is read up to a character that cannot be part of it. -/
theorem IsName.reads {text : List Char} (h : IsName text)
    (hrest : ∀ c ∈ rest.head?, isNamePart c = false) :
    Reads name (text ++ rest) (String.ofList text) rest := by
  obtain ⟨c, more, rfl, hc, hmore⟩ := h
  exact reads_name hc hmore hrest

/-- The parts of a name behind the first. -/
def laterParts (more : List String) : List Char := more.flatMap fun part => '.' :: part.toList

theorem toList_parts (first : String) (more : List String) :
    (".".intercalate (first :: more)).toList = first.toList ++ laterParts more := by
  induction more generalizing first with
  | nil => simp [laterParts]
  | cons second more ih =>
    have hrest := ih second
    simp only [String.toList_intercalate, List.map_cons, List.intercalate_cons_cons] at hrest ⊢
    rw [hrest]
    simp [laterParts]

/-- One name, or several with points between. -/
def IsPath (n : String) : Prop :=
  ∃ first more, n = ".".intercalate (first :: more) ∧ ∀ part ∈ first :: more, IsName part.toList

theorem bounded_laterParts (h : Bounded rest) (more : List String) :
    ∀ c ∈ (laterParts more ++ rest).head?, isNamePart c = false := by
  cases more with
  | nil => exact h.namePart
  | cons part more =>
    rintro c ⟨⟩
    decide

/-- The later parts of a name are read one by one, each behind its point. -/
theorem readsEach_laterParts (h : Bounded rest) {more : List String}
    (hmore : ∀ part ∈ more, IsName part.toList) :
    ReadsEach (do word ['.']; name) (laterParts more ++ rest) more rest := by
  induction more with
  | nil => exact .nil (Refuses.bind (refuses_word '.' [] h.dot))
  | cons part more ih =>
    have hpart := (hmore part List.mem_cons_self).reads (bounded_laterParts h more)
    rw [String.ofList_toList] at hpart
    have hinput : laterParts (part :: more) ++ rest =
        '.' :: (part.toList ++ (laterParts more ++ rest)) := by
      simp [laterParts]
    rw [hinput]
    refine .cons ((reads_symbol '.' _).bind hpart) ?_
      (ih fun p hp => hmore p (List.mem_cons_of_mem part hp))
    simp only [List.length_cons, List.length_append]
    omega

/-! ## Refused operands -/

/-- No hexadecimal numeral is read where its mark does not stand. -/
theorem refuses_hexNumber
    (h : ∀ c ∈ input.head?, c = '0' → ∀ d ∈ input.tail.head?, d ≠ 'x' ∧ d ≠ 'X') :
    Refuses hexNumber input := by
  have hword : ∀ x, x = 'x' ∨ x = 'X' → Refuses (word ['0', x]) input := by
    intro x hx
    cases input with
    | nil => exact refuses_word '0' [x] nofun
    | cons c input =>
      by_cases hc : c = '0'
      · subst hc
        refine refuses_word_second '0' x [] fun d hd => ?_
        rcases hx with rfl | rfl
        · exact (h '0' rfl rfl d hd).1
        · exact (h '0' rfl rfl d hd).2
      · refine refuses_word '0' [x] ?_
        rintro d ⟨⟩
        exact hc
  exact ((hword 'x' (.inl rfl)).bind.orElse (hword 'X' (.inr rfl)).bind).bind.named _

theorem refuses_decimalNumber (h : ∀ c ∈ input.head?, c.isDigit = false) :
    Refuses decimalNumber input :=
  (refuses_span1 h).bind.named _

theorem refuses_externalRef (h : ∀ c ∈ input.head?, c ≠ '$') : Refuses externalRef input :=
  (refuses_word '$' [] h).bind.named _

/-- A mark without a name behind it. -/
theorem refuses_externalRef_mark (h : ∀ c ∈ input.head?, isNameStart c = false) :
    Refuses externalRef ('$' :: input) :=
  ((reads_symbol '$' input).bind_refuses (refuses_name h).bind).named _

theorem refuses_counter (h : ∀ c ∈ input.head?, c ≠ '$') : Refuses counter input :=
  ((refuses_word '$' ['$'] h).orElse (refuses_word '$' [] h)).bind.named _

theorem refuses_fieldRef (h : ∀ c ∈ input.head?, isNameStart c = false) :
    Refuses fieldRef input :=
  (refuses_name h).bind.named _

/-! ## Operands -/

/-- A hexadecimal numeral is read as an operand, in front of all other alternatives. -/
theorem reads_hexNumber {mark : String} (hmark : mark = "0x" ∨ mark = "0X") {c : Char}
    {more : List Char} (hc : isHexDigit c = true) (hmore : ∀ d ∈ more, isHexDigit d = true)
    (h : Bounded rest) :
    Reads (primary inner) (mark.toList ++ (c :: more ++ rest))
      (.hex mark (String.ofList (c :: more))) rest := by
  have hdigits := reads_span1 hc hmore h.hexDigit
  have hend := (reads_notNext h.namePart).bind_pure fun _ =>
    Term.hex mark (String.ofList (c :: more))
  refine (Reads.named _ (Reads.bind (x := mark) ?_ (hdigits.bind hend))).orElse
  rcases hmark with rfl | rfl
  · exact ((reads_word "0x".toList _).bind_pure fun _ => "0x").orElse
  · refine Refuses.orElse_reads (Refuses.bind ?_) ((reads_word "0X".toList _).bind_pure fun _ => "0X")
    exact refuses_word_second '0' 'x' [] (by rintro d ⟨⟩; decide)

/-- A decimal numeral is read as an operand, since no mark of a hexadecimal one begins it. -/
theorem reads_decimal {c : Char} {more : List Char} (hc : c.isDigit = true)
    (hmore : ∀ d ∈ more, d.isDigit = true) (h : Bounded rest) :
    Reads (primary inner) (c :: more ++ rest) (.decimal (String.ofList (c :: more))) rest := by
  have hhex : Refuses hexNumber (c :: more ++ rest) := by
    refine refuses_hexNumber fun _ _ _ d hd => ?_
    -- Behind the first digit stands another one or the end of the numeral.
    have hx : isNamePart d = false ∨ d.isDigit = true := by
      cases more with
      | nil => exact .inl (h.namePart d hd)
      | cons e more =>
        cases hd
        exact .inr (hmore _ List.mem_cons_self)
    constructor
    · rintro rfl
      revert hx
      decide
    · rintro rfl
      revert hx
      decide
  have hdigits := reads_span1 hc hmore h.digit
  have hend := (reads_notNext h.nameStart).bind_pure fun _ =>
    Term.decimal (String.ofList (c :: more))
  exact hhex.orElse_reads (Reads.named _ (hdigits.bind hend)).orElse

/-- What begins with a mark is not a numeral. -/
theorem refuses_numerals_mark (rest : List Char) :
    Refuses hexNumber ('$' :: rest) ∧ Refuses decimalNumber ('$' :: rest) :=
  ⟨refuses_hexNumber (by rintro c ⟨⟩ h; exact absurd h (by decide)),
    refuses_decimalNumber (by rintro c ⟨⟩; decide)⟩

/-- An external name is read as an operand up to the first character that is no part of it. -/
theorem reads_external {text : List Char} (htext : IsName text)
    (h : ∀ c ∈ rest.head?, isNamePart c = false) :
    Reads (primary inner) ('$' :: (text ++ rest)) (.external (String.ofList text)) rest := by
  obtain ⟨hhex, hdecimal⟩ := refuses_numerals_mark (text ++ rest)
  have hname := (htext.reads h).bind_pure Term.external
  exact hhex.orElse_reads (hdecimal.orElse_reads
    (Reads.named _ ((reads_symbol '$' _).bind hname)).orElse)

/-- The counter is read where no name follows its mark. -/
theorem reads_counter {mark : List Char} (hmark : mark = ['$'] ∨ mark = ['$', '$'])
    (h : Bounded rest) : Reads (primary inner) (mark ++ rest) .counter rest := by
  have hend := (reads_notNext h.nameStart).bind_pure fun _ => Term.counter
  have key : ∀ input, (∀ c ∈ input.head?, isNameStart c = false) →
      Reads (word ['$', '$'] <|> word ['$']) ('$' :: input) () rest →
      Reads (primary inner) ('$' :: input) .counter rest := by
    intro input hinput hread
    obtain ⟨hhex, hdecimal⟩ := refuses_numerals_mark input
    exact hhex.orElse_reads (hdecimal.orElse_reads
      ((refuses_externalRef_mark hinput).orElse_reads (Reads.named _ (hread.bind hend)).orElse))
  rcases hmark with rfl | rfl
  · exact key rest h.nameStart
      ((refuses_word_second '$' '$' [] h.mark).orElse_reads (reads_symbol '$' rest))
  · exact key ('$' :: rest) (by rintro c ⟨⟩; decide) (reads_word ['$', '$'] rest).orElse

/-- What begins with a name is neither a numeral nor marked. -/
theorem reads_fieldRef {first : String} {more : List String}
    (hparts : ∀ part ∈ first :: more, IsName part.toList) (h : Bounded rest) :
    Reads (primary inner) ((".".intercalate (first :: more)).toList ++ rest)
      (.name (".".intercalate (first :: more))) rest := by
  rw [toList_parts, List.append_assoc]
  have hfirst := hparts first List.mem_cons_self
  have hname := hfirst.reads (bounded_laterParts h more)
  rw [String.ofList_toList] at hname
  have hmore := readsEach_laterParts h fun part hp => hparts part (List.mem_cons_of_mem first hp)
  have hstart : ∀ c ∈ (first.toList ++ (laterParts more ++ rest)).head?,
      isNameStart c = true := by
    obtain ⟨c, text, htext, hc, -⟩ := hfirst
    rw [htext]
    rintro d ⟨⟩
    exact hc
  have hno : ∀ x, isNameStart x = false →
      ∀ c ∈ (first.toList ++ (laterParts more ++ rest)).head?, c ≠ x := by
    rintro x hx c hc rfl
    simp [hstart c hc] at hx
  refine (refuses_hexNumber fun c hc h0 => absurd h0 (hno '0' (by decide) c hc)).orElse_reads
    ((refuses_decimalNumber fun c hc => isDigit_of_isNameStart (hstart c hc)).orElse_reads
      ((refuses_externalRef (hno '$' (by decide))).orElse_reads
        ((refuses_counter (hno '$' (by decide))).orElse_reads
          (Reads.named _ (hname.bind (hmore.many.bind_pure fun more =>
            Term.name (".".intercalate (first :: more))))).orElse)))

/-- Only separators. -/
def Blank (text : List Char) : Prop := ∀ c ∈ text, Text.isSeparator c = true

theorem blank_nil : Blank [] := nofun

theorem blank_space : Blank [' '] := by
  rintro c (_ | ⟨_, ⟨⟩⟩)
  decide

theorem solid_symbol {c : Char} (hseparator : Text.isSeparator c = false) (hslash : c ≠ '/') :
    Solid (c :: rest) :=
  solid_cons hseparator fun h => absurd h hslash

/-- An expression in parentheses. -/
def group (inner : Scanner Term) : Scanner Term := do
  word ['(']
  gap
  let t ← inner
  gap
  word [')']
  pure (.group t)

/-- What begins with a parenthesis is no other operand. -/
theorem refuses_others_group (input : List Char) :
    Refuses hexNumber ('(' :: input) ∧ Refuses decimalNumber ('(' :: input) ∧
      Refuses externalRef ('(' :: input) ∧ Refuses counter ('(' :: input) ∧
        Refuses fieldRef ('(' :: input) := by
  have hmark : ∀ c ∈ ('(' :: input).head?, c ≠ '$' := by rintro c ⟨⟩; decide
  exact ⟨refuses_hexNumber (by rintro c ⟨⟩ h; exact absurd h (by decide)),
    refuses_decimalNumber (by rintro c ⟨⟩; decide), refuses_externalRef hmark,
    refuses_counter hmark, refuses_fieldRef (by rintro c ⟨⟩; decide)⟩

/-- A group is read as an operand, with any blanks inside its parentheses. -/
theorem reads_group {before after : List Char} (hbefore : Blank before) (hafter : Blank after)
    (hinput : Solid input) (h : Reads inner input t (after ++ ')' :: rest)) :
    Reads (primary inner) ('(' :: (before ++ input)) (.group t) rest := by
  obtain ⟨hhex, hdecimal, hexternal, hcounter, hname⟩ := refuses_others_group (before ++ input)
  have hclose : Solid (')' :: rest) := solid_symbol (by decide) (by decide)
  have hend := (reads_gap hafter hclose).seq
    ((reads_symbol ')' rest).bind_pure fun _ => Term.group t)
  have hinner := h.bind (f := fun t => do gap; word [')']; pure (Term.group t)) hend
  have hbody : Reads (group inner) ('(' :: (before ++ input)) (.group t) rest :=
    (reads_symbol '(' (before ++ input)).seq ((reads_gap hbefore hinput).seq hinner)
  exact hhex.orElse_reads (hdecimal.orElse_reads (hexternal.orElse_reads
    (hcounter.orElse_reads (hname.orElse_reads hbody))))

/-! ## Signs and operators -/

section Marks

variable {α : Type} {production : Production} {x : α} {c : Char} {more : List Char}

/-- A mark that stands for itself. -/
theorem reads_mark (text : List Char) (rest : List Char) :
    Reads (named production (do word text; pure x)) (text ++ rest) x rest :=
  ((reads_word text rest).bind_pure fun _ => x).named _

theorem refuses_mark (h : ∀ d ∈ input.head?, d ≠ c) :
    Refuses (named production (do word (c :: more); pure x)) input :=
  (refuses_word c more h).bind.named _

end Marks

end RecordLayout.Script.Scanner

namespace RecordLayout

/-- How a sign is written. -/
def Sign.symbol : Sign → String
  | .plus => "+"
  | .unary op => op.symbol

end RecordLayout

namespace RecordLayout.Script.Scanner

variable {input rest mid : List Char} {inner : Scanner Term} {t : Term}

/-- A sign is read as the sign that is written so. -/
theorem reads_sign (s : Sign) (rest : List Char) : Reads sign (s.symbol.toList ++ rest) s rest := by
  match s with
  | .unary .neg => exact (reads_mark "-".toList rest).orElse
  | .plus =>
    exact Refuses.orElse_reads (refuses_mark (by rintro c ⟨⟩; decide))
      (reads_mark "+".toList rest).orElse
  | .unary .not =>
    exact Refuses.orElse_reads (refuses_mark (by rintro c ⟨⟩; decide))
      (Refuses.orElse_reads (refuses_mark (by rintro c ⟨⟩; decide)) (reads_mark "~".toList rest))

theorem refuses_sign (h : ∀ c ∈ input.head?, c ≠ '-' ∧ c ≠ '+' ∧ c ≠ '~') : Refuses sign input :=
  (refuses_mark fun c hc => (h c hc).1).orElse
    ((refuses_mark fun c hc => (h c hc).2.1).orElse (refuses_mark fun c hc => (h c hc).2.2))

/-- The characters that operators begin with. -/
def operatorStarts : List Char := ['+', '-', '*', '/', '%', '<', '>', '&', '^', '|']

/-- An operator is refused where none of them begins. -/
theorem refuses_operator (h : ∀ c ∈ input.head?, c ∉ operatorStarts) :
    Refuses operator input := by
  have hno : ∀ x ∈ operatorStarts, ∀ c ∈ input.head?, c ≠ x := by
    rintro x hx c hc rfl
    exact h c hc hx
  simp only [operatorStarts, List.forall_mem_cons] at hno
  obtain ⟨hadd, hsub, hmul, hdiv, hrem, hshl, hshr, hand, hxor, hor, -⟩ := hno
  exact (refuses_mark hadd).orElse ((refuses_mark hsub).orElse ((refuses_mark hmul).orElse
    ((refuses_mark hdiv).orElse ((refuses_mark hrem).orElse ((refuses_mark hshl).orElse
      ((refuses_mark hshr).orElse ((refuses_mark hand).orElse ((refuses_mark hxor).orElse
        (refuses_mark hor)))))))))

/-- No operator begins as another one does, so the alternatives before an operator refuse it. -/
theorem reads_operator (op : BinaryOp) (rest : List Char) :
    Reads operator (op.symbol.toList ++ rest) op rest := by
  unfold operator
  cases op with
  | add => exact (reads_mark _ rest).orElse
  | sub =>
    iterate 1 refine Refuses.orElse_reads (refuses_mark (by rintro c ⟨⟩; decide)) ?_
    exact (reads_mark _ rest).orElse
  | mul =>
    iterate 2 refine Refuses.orElse_reads (refuses_mark (by rintro c ⟨⟩; decide)) ?_
    exact (reads_mark _ rest).orElse
  | div =>
    iterate 3 refine Refuses.orElse_reads (refuses_mark (by rintro c ⟨⟩; decide)) ?_
    exact (reads_mark _ rest).orElse
  | rem =>
    iterate 4 refine Refuses.orElse_reads (refuses_mark (by rintro c ⟨⟩; decide)) ?_
    exact (reads_mark _ rest).orElse
  | shl =>
    iterate 5 refine Refuses.orElse_reads (refuses_mark (by rintro c ⟨⟩; decide)) ?_
    exact (reads_mark _ rest).orElse
  | shr =>
    iterate 6 refine Refuses.orElse_reads (refuses_mark (by rintro c ⟨⟩; decide)) ?_
    exact (reads_mark _ rest).orElse
  | and =>
    iterate 7 refine Refuses.orElse_reads (refuses_mark (by rintro c ⟨⟩; decide)) ?_
    exact (reads_mark _ rest).orElse
  | xor =>
    iterate 8 refine Refuses.orElse_reads (refuses_mark (by rintro c ⟨⟩; decide)) ?_
    exact (reads_mark _ rest).orElse
  | or =>
    iterate 9 refine Refuses.orElse_reads (refuses_mark (by rintro c ⟨⟩; decide)) ?_
    exact reads_mark _ rest

/-- No gap begins with an operator: the slash of a division has a space behind. -/
theorem solid_operator (op : BinaryOp) (rest : List Char) :
    Solid (op.symbol.toList ++ ' ' :: rest) := by
  cases op
  case div => exact solid_cons (by decide) fun _ => by rintro d ⟨⟩; decide
  all_goals exact solid_symbol (by decide) (by decide)

theorem solid_sign (s : Sign) (rest : List Char) : Solid (s.symbol.toList ++ rest) := by
  match s with
  | .plus | .unary .neg | .unary .not => exact solid_symbol (by decide) (by decide)

/-! ## Operands with signs -/

/-- In front of these characters stand signs, and behind them what has no sign before it. -/
inductive SignsBefore : List Char → List Sign → List Char → Prop
  | nil {input : List Char} (solid : Solid input) (unsigned : Refuses Scanner.sign input) :
      SignsBefore input [] input
  | cons {input mid : List Char} {signs : List Sign} (s : Sign) {blanks : List Char}
      (hblanks : Blank blanks) (h : SignsBefore input signs mid) :
      SignsBefore (s.symbol.toList ++ (blanks ++ input)) (s :: signs) mid

namespace SignsBefore

variable {signs : List Sign}

theorem solid (h : SignsBefore input signs mid) : Solid input := by
  cases h with
  | nil solid => exact solid
  | cons s => exact solid_sign s _

/-- What begins with a character of a name, a mark or a parenthesis has no sign before it. -/
theorem of_start {c : Char} (hc : isNamePart c = true ∨ c = '$' ∨ c = '(') (input : List Char) :
    SignsBefore (c :: input) [] (c :: input) := by
  have hno : ∀ x, isNamePart x = false ∧ x ≠ '$' ∧ x ≠ '(' → c ≠ x := by
    rintro x ⟨hpart, hmark, hopen⟩ rfl
    simp [hpart, hmark, hopen] at hc
  have hseparator : Text.isSeparator c = false := by
    simp only [Text.isSeparator, Bool.or_eq_false_iff, beq_eq_false_iff_ne]
    exact ⟨⟨⟨hno _ (by decide), hno _ (by decide)⟩, hno _ (by decide)⟩, hno _ (by decide)⟩
  refine .nil (solid_symbol hseparator (hno '/' (by decide))) (refuses_sign ?_)
  rintro d ⟨⟩
  exact ⟨hno '-' (by decide), hno '+' (by decide), hno '~' (by decide)⟩

/-- The signs that follow, and the gap behind them. -/
theorem each (h : SignsBefore input signs mid) {blanks : List Char} (hblanks : Blank blanks) :
    ∃ after, ReadsEach (do gap; Scanner.sign) (blanks ++ input) signs after ∧
      Reads gap after () mid := by
  induction h generalizing blanks with
  | nil solid unsigned =>
    have hgap := reads_gap hblanks solid
    exact ⟨_, .nil (hgap.bind_refuses unsigned), hgap⟩
  | @cons input mid signs s within hwithin h ih =>
    obtain ⟨after, hsigns, hgap⟩ := ih hwithin
    have hsign := (reads_gap hblanks (solid_sign s (within ++ input))).seq (reads_sign s _)
    refine ⟨after, .cons hsign ?_ hsigns, hgap⟩
    have : 0 < s.symbol.toList.length := by
      match s with
      | .plus | .unary .neg | .unary .not => decide
    simp only [List.length_append]
    omega

/-- All the signs, and the gap behind them. -/
theorem reads (h : SignsBefore input signs mid) :
    ∃ after, Reads (manyApart Scanner.sign) input signs after ∧ Reads gap after () mid := by
  cases h with
  | nil solid unsigned => exact ⟨_, unsigned.manyApart, reads_gap blank_nil solid⟩
  | cons s hblanks h =>
    obtain ⟨after, hsigns, hgap⟩ := h.each hblanks
    exact ⟨after, ReadsEach.manyApart (reads_sign s _) hsigns, hgap⟩

end SignsBefore

/-- In front of these characters stands an operand with its signs, and the rest is left. -/
def ReadsOperand (inner : Scanner Term) (input : List Char) (t : Term) (rest : List Char) : Prop :=
  ∃ signs mid u, SignsBefore input signs mid ∧ Reads (primary inner) mid u rest ∧
    signs.foldr Sign.before u = t

/-- Behind the signs in front of these characters stands no operand. -/
def RefusesOperand (inner : Scanner Term) (input : List Char) : Prop :=
  ∃ signs mid, SignsBefore input signs mid ∧ Refuses (primary inner) mid

namespace ReadsOperand

theorem solid (h : ReadsOperand inner input t rest) : Solid input := by
  obtain ⟨signs, mid, u, hsigned, -, -⟩ := h
  exact hsigned.solid

theorem of_primary {c : Char} (hc : isNamePart c = true ∨ c = '$' ∨ c = '(')
    (h : Reads (primary inner) (c :: input) t rest) : ReadsOperand inner (c :: input) t rest :=
  ⟨[], _, t, .of_start hc input, h, rfl⟩

/-- One more sign in front of an operand is read as the sign before its term. -/
theorem sign (s : Sign) {blanks : List Char} (hblanks : Blank blanks)
    (h : ReadsOperand inner input t rest) :
    ReadsOperand inner (s.symbol.toList ++ (blanks ++ input)) (s.before t) rest := by
  obtain ⟨signs, mid, u, hsigned, hu, rfl⟩ := h
  exact ⟨s :: signs, mid, u, .cons s hblanks hsigned, hu, rfl⟩

theorem reads (h : ReadsOperand inner input t rest) : Reads (operand inner) input t rest := by
  obtain ⟨signs, mid, u, hsigned, hu, rfl⟩ := h
  obtain ⟨after, hsigns, hgap⟩ := hsigned.reads
  exact hsigns.bind (hgap.bind (hu.bind_pure fun t => signs.foldr Sign.before t))

end ReadsOperand

namespace RefusesOperand

theorem solid (h : RefusesOperand inner input) : Solid input := by
  obtain ⟨signs, mid, hsigned, -⟩ := h
  exact hsigned.solid

theorem sign (s : Sign) {blanks : List Char} (hblanks : Blank blanks)
    (h : RefusesOperand inner input) :
    RefusesOperand inner (s.symbol.toList ++ (blanks ++ input)) := by
  obtain ⟨signs, mid, hsigned, hmid⟩ := h
  exact ⟨s :: signs, mid, .cons s hblanks hsigned, hmid⟩

theorem refuses (h : RefusesOperand inner input) : Refuses (operand inner) input := by
  obtain ⟨signs, mid, hsigned, hmid⟩ := h
  obtain ⟨after, hsigns, hgap⟩ := hsigned.reads
  exact hsigns.bind_refuses (hgap.bind_refuses hmid.bind)

end RefusesOperand

end RecordLayout.Script.Scanner
