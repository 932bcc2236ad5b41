import RecordLayout.Proofs.Expr.Rendering

/-!
# Printed texts are unambiguous

The printer ends with no operator waiting and with the text of the expression, which has
parentheses around every binary operation (`items_printed`). Such a text belongs to one expression
(`eq_of_text_eq`). It belongs to one term, since a word goes on as long as there are characters of
words, and a sign and a parenthesis are no such characters. And the term is that of one folded
expression: in it a sign before a numeral is part of a constant, as folding has left no operation on
a constant, and a name is the path of one field.
-/

namespace RecordLayout

open Script Script.Scanner

namespace Expr

/-! ## The text of an expression -/

/-- The text of an expression, with parentheses around every binary operation. -/
def text : Expr → String
  | const v => toString v
  | field info => info.path
  | external name => "$" ++ name
  | counter => "$$"
  | unary op e => unaryText op e.text
  | binary op l r => binaryText op l.text r.text

theorem spelling_eq_text (e : Expr) : e.spelling = e.text := by
  induction e with
  | const v => exact spelling_const v
  | field info => rw [spelling, term, Term.text, String.ofList_toList, text]
  | external name => exact String.toList_injective (by simp [spelling, term, Term.text, text])
  | counter => rfl
  | unary op e ih => rw [spelling_unary, ih, text]
  | binary op l r ihl ihr => rw [spelling_binary, ihl, ihr, text]

/-- The printer ends with an empty stack and the text of the expression. -/
theorem items_printed (e : Expr) : e.items.foldl Printer.take .empty = ⟨[], e.text⟩ := by
  rw [foldl_take, spelling_eq_text]
  rfl

theorem render_eq_text (e : Expr) : e.render = e.text := by
  rw [render, items_printed]

end Expr

/-! ## Words -/

namespace Script.Scanner

/-- A character of numerals, names and marks. -/
def isWordPart (c : Char) : Bool := isNamePart c || c == '.' || c == '$'

theorem isWordPart_of_isNamePart {c : Char} (h : isNamePart c = true) : isWordPart c = true := by
  rw [isWordPart, h]
  rfl

/-- A word is as long as there are characters of words. -/
theorem word_append_inj {w w' rest rest' : List Char} (hw : ∀ c ∈ w, isWordPart c = true)
    (hw' : ∀ c ∈ w', isWordPart c = true) (hrest : Bounded rest) (hrest' : Bounded rest')
    (h : w ++ rest = w' ++ rest') : w = w' ∧ rest = rest' := by
  have htake : ∀ {w rest : List Char}, (∀ c ∈ w, isWordPart c = true) → Bounded rest →
      (w ++ rest).takeWhile isWordPart = w := by
    intro w rest hw hrest
    rw [List.takeWhile_append_of_pos hw]
    cases rest with
    | nil => rw [List.takeWhile_nil, List.append_nil]
    | cons c rest =>
      obtain ⟨hpart, hdot, hmark⟩ := hrest c rfl
      rw [List.takeWhile_cons_of_neg (by simp [isWordPart, hpart, hdot, hmark]), List.append_nil]
  have heq : w = w' := by
    rw [← htake hw hrest, h, htake hw' hrest']
  subst heq
  exact ⟨rfl, List.append_cancel_left h⟩

/-- A scanner reads one value and leaves one rest. -/
theorem Reads.unique {α : Type} {s : Scanner α} {input rest rest' : List Char} {x x' : α}
    (h : Reads s input x rest) (h' : Reads s input x' rest') : x = x' ∧ rest = rest' := by
  obtain ⟨place, attempts, h⟩ := h .start .none
  obtain ⟨place', attempts', h'⟩ := h' .start .none
  cases h.symm.trans h'
  exact ⟨rfl, rfl⟩

/-- A path begins like a name and goes on like a word. -/
theorem IsPath.eq_cons {path : String} (h : IsPath path) :
    ∃ c more, path.toList = c :: more ∧ isNameStart c = true ∧ ∀ d ∈ more, isWordPart d = true := by
  obtain ⟨first, later, rfl, hparts⟩ := h
  obtain ⟨c, more, hfirst, hc, hmore⟩ := hparts first List.mem_cons_self
  refine ⟨c, more ++ laterParts later, by rw [toList_parts, hfirst]; rfl, hc, fun d hd => ?_⟩
  rcases List.mem_append.mp hd with hd | hd
  · exact isWordPart_of_isNamePart (hmore d hd)
  · obtain ⟨part, hpart, hd⟩ := List.mem_flatMap.mp hd
    rcases List.mem_cons.mp hd with rfl | hd
    · rfl
    · exact isWordPart_of_isNamePart ((hparts part (List.mem_cons_of_mem first hpart)).namePart d hd)

end Script.Scanner

namespace Term

/-- A term that is one word. -/
inductive IsWord : Term → Prop
  | decimal {digits : String} {c : Char} {more : List Char} (eq : digits.toList = c :: more)
      (isDigit : ∀ d ∈ c :: more, d.isDigit = true) : IsWord (.decimal digits)
  | counter : IsWord .counter
  | external {n : String} (path : IsPath n) : IsWord (.external n)
  | name {n : String} (path : IsPath n) : IsWord (.name n)

/-- The term that a word stands for. -/
def ofWord (word : List Char) : Term :=
  let text := String.ofList word
  match word with
  | [] => .name text
  | c :: more =>
    if c = '$' then if more = ['$'] then .counter else .external (String.ofList more)
    else if c.isDigit then .decimal text
    else .name text

namespace IsWord

variable {t t' : Term}

/-- The first character tells what kind of word it is. -/
theorem ofWord_text (h : t.IsWord) : ofWord (t.text Expr.tight) = t := by
  cases h with
  | @decimal digits c more heq hdigits =>
    have hc := hdigits c List.mem_cons_self
    have hmark : c ≠ '$' := fun hmark => absurd hc (by rw [hmark]; decide)
    have htext : String.ofList (c :: more) = digits := by rw [← heq, String.ofList_toList]
    rw [text, heq, ofWord, if_neg hmark, if_pos hc, htext]
  | counter => rfl
  | @external n hpath =>
    obtain ⟨c, more, hn, hc, -⟩ := hpath.eq_cons
    have hmark : n.toList ≠ ['$'] := by
      rintro heq
      obtain ⟨rfl, -⟩ := List.cons.inj (hn.symm.trans heq)
      exact absurd hc (by decide)
    rw [text, ofWord, if_pos rfl, if_neg hmark, String.ofList_toList]
  | @name n hpath =>
    obtain ⟨c, more, hn, hc, -⟩ := hpath.eq_cons
    have hmark : c ≠ '$' := fun hmark => absurd hc (by rw [hmark]; decide)
    have htext : String.ofList (c :: more) = n := by rw [← hn, String.ofList_toList]
    have hdigit : ¬ c.isDigit = true := by rw [isDigit_of_isNameStart hc]; exact Bool.false_ne_true
    rw [text, hn, ofWord, if_neg hmark, if_neg hdigit, htext]

/-- A word has no character that could end it. -/
theorem isWordPart_text (h : t.IsWord) : ∀ c ∈ t.text Expr.tight, isWordPart c = true := by
  have hpath : ∀ {n : String}, IsPath n → ∀ c ∈ n.toList, isWordPart c = true := by
    intro n h
    obtain ⟨c, more, hn, hc, hmore⟩ := h.eq_cons
    rw [hn]
    exact List.forall_mem_cons.mpr ⟨isWordPart_of_isNamePart (isNamePart_of_isNameStart hc), hmore⟩
  cases h with
  | @decimal digits c more heq hdigits =>
    intro d hd
    rw [text, heq] at hd
    exact isWordPart_of_isNamePart (isNamePart_of_isDigit (hdigits d hd))
  | counter => exact List.forall_mem_cons.mpr ⟨rfl, List.forall_mem_singleton.mpr rfl⟩
  | external h => exact List.forall_mem_cons.mpr ⟨rfl, hpath h⟩
  | name h => exact hpath h

theorem text_ne_nil (h : t.IsWord) : t.text Expr.tight ≠ [] := by
  cases h with
  | decimal heq =>
    rw [text, heq]
    exact List.cons_ne_nil _ _
  | counter => exact List.cons_ne_nil _ _
  | external => exact List.cons_ne_nil _ _
  | name hpath =>
    obtain ⟨c, more, hn, -⟩ := hpath.eq_cons
    rw [text, hn]
    exact List.cons_ne_nil _ _

/-- What begins with a word does not begin with a sign or a parenthesis. -/
theorem text_append_ne (h : t.IsWord) {c : Char} (hc : isWordPart c = false)
    (rest input : List Char) : t.text Expr.tight ++ rest ≠ c :: input := by
  obtain ⟨d, more, hd⟩ := List.exists_cons_of_ne_nil h.text_ne_nil
  have hpart := h.isWordPart_text d (by rw [hd]; exact List.mem_cons_self)
  rw [hd]
  intro heq
  obtain ⟨rfl, -⟩ := List.cons.inj heq
  rw [hc] at hpart
  exact Bool.false_ne_true hpart

/-- A word in front of what bounds it is cut off where the bound begins. -/
theorem text_append_inj (h : t.IsWord) (h' : t'.IsWord) {rest rest' : List Char}
    (hrest : Bounded rest) (hrest' : Bounded rest')
    (heq : t.text Expr.tight ++ rest = t'.text Expr.tight ++ rest') : t = t' ∧ rest = rest' := by
  obtain ⟨hword, hbehind⟩ :=
    word_append_inj h.isWordPart_text h'.isWordPart_text hrest hrest' heq
  rw [← h.ofWord_text, hword, h'.ofWord_text]
  exact ⟨rfl, hbehind⟩

end IsWord

/-! ## Terms as they are printed -/

/-- A term that is printed: its binary operations stand in parentheses, and nothing else does. -/
inductive Printed : Term → Prop
  | word {t : Term} (h : t.IsWord) : Printed t
  | unary (op : UnaryOp) {t : Term} (operand : Printed t) : Printed (.unary op t)
  | group (op : BinaryOp) {l r : Term} (left : Printed l) (right : Printed r) :
      Printed (.group (.binary op l r))

/-- The character of a unary operator. -/
def sign : UnaryOp → Char
  | .neg => '-'
  | .not => '~'

theorem sign_inj {op op' : UnaryOp} (h : sign op = sign op') : op = op' := by
  cases op <;> cases op' <;> first | rfl | exact absurd h (by decide)

theorem sign_not_word (op : UnaryOp) : isWordPart (sign op) = false := by
  cases op <;> rfl

theorem sign_ne (op : UnaryOp) : sign op ≠ '(' := by
  cases op <;> decide

theorem text_unary_append (op : UnaryOp) (t : Term) (rest : List Char) :
    (unary op t).text Expr.tight ++ rest = sign op :: (t.text Expr.tight ++ rest) := by
  cases op <;> rfl

theorem text_group_append (op : BinaryOp) (l r : Term) (rest : List Char) :
    (group (.binary op l r)).text Expr.tight ++ rest =
      '(' :: (l.text Expr.tight ++ ' ' :: (op.symbol.toList ++ ' ' ::
        (r.text Expr.tight ++ ')' :: rest))) := by
  simp [text, Expr.tight]

/-- An operator is read from the text in the same way whatever stands behind it, so the text
determines it and the rest. -/
theorem symbol_append_inj {op op' : BinaryOp} {rest rest' : List Char}
    (h : op.symbol.toList ++ rest = op'.symbol.toList ++ rest') : op = op' ∧ rest = rest' := by
  have hread := reads_operator op rest
  rw [h] at hread
  exact hread.unique (reads_operator op' rest')

/-- A text that begins with a printed term determines the term and what is behind it. -/
theorem Printed.text_append_inj {t t' : Term} (h : t.Printed) (h' : t'.Printed)
    {rest rest' : List Char} (hrest : Bounded rest) (hrest' : Bounded rest')
    (heq : t.text Expr.tight ++ rest = t'.text Expr.tight ++ rest') : t = t' ∧ rest = rest' := by
  induction h generalizing t' rest rest' with
  | word hword =>
    cases h' with
    | word hword' => exact hword.text_append_inj hword' hrest hrest' heq
    | unary op _ =>
      rw [text_unary_append] at heq
      exact absurd heq (hword.text_append_ne (sign_not_word op) rest _)
    | group op _ _ =>
      rw [text_group_append] at heq
      exact absurd heq (hword.text_append_ne rfl rest _)
  | unary op _ ih =>
    rw [text_unary_append] at heq
    cases h' with
    | word hword' => exact absurd heq.symm (hword'.text_append_ne (sign_not_word op) rest' _)
    | unary op' operand' =>
      rw [text_unary_append] at heq
      obtain ⟨hsign, heq⟩ := List.cons.inj heq
      obtain ⟨rfl, hbehind⟩ := ih operand' hrest hrest' heq
      exact ⟨by rw [sign_inj hsign], hbehind⟩
    | group op' _ _ =>
      rw [text_group_append] at heq
      exact absurd (List.cons.inj heq).1 (sign_ne op)
  | group op _ _ ihl ihr =>
    rw [text_group_append] at heq
    cases h' with
    | word hword' => exact absurd heq.symm (hword'.text_append_ne rfl rest' _)
    | unary op' _ =>
      rw [text_unary_append] at heq
      exact absurd (List.cons.inj heq).1.symm (sign_ne op')
    | group op' left' right' =>
      rw [text_group_append] at heq
      have hspace : ∀ input, Bounded (' ' :: input) := fun _ => .cons rfl (by decide) (by decide)
      have hclose : ∀ input, Bounded (')' :: input) := fun _ => .cons rfl (by decide) (by decide)
      obtain ⟨rfl, hop⟩ := ihl left' (hspace _) (hspace _) (List.cons.inj heq).2
      obtain ⟨rfl, hoperand⟩ := symbol_append_inj (List.cons.inj hop).2
      obtain ⟨rfl, hend⟩ := ihr right' (hclose _) (hclose _) (List.cons.inj hoperand).2
      exact ⟨rfl, (List.cons.inj hend).2⟩

end Term

namespace Expr

/-! ## The expression of a printed term -/

theorem isWord_decimal (n : Nat) : (Term.decimal (toString n)).IsWord := by
  obtain ⟨hne, hdigits⟩ := Formula.wellFormed_numeral n
  obtain ⟨c, more, heq⟩ := List.exists_cons_of_ne_nil hne
  exact .decimal heq (heq ▸ hdigits)

/-- The term of an expression is printed, if its fields and externals have names of the grammar. -/
theorem WellNamed.printed {e : Expr} (h : e.WellNamed) : e.term.Printed := by
  induction e with
  | const v =>
    have hdigits := isWord_decimal v.toInt.natAbs
    unfold term constTerm
    split
    · exact .unary .neg (.word hdigits)
    · exact .word hdigits
  | field info => exact .word (.name (h.field info List.mem_cons_self))
  | external name => exact .word (.external (h.external name List.mem_cons_self))
  | counter => exact .word .counter
  | unary op e ih => exact .unary op (ih h.operand)
  | binary op l r ihl ihr => exact .group op (ihl h.left) (ihr h.right)

/-- The constant with these digits. -/
def ofDigits (digits : String) : Int64 := .ofNat (Term.numeralValue 10 digits)

/-- The expression of a printed term, if `field` gives the field with a path. A sign before a numeral
is part of the constant. -/
def ofTerm (field : String → FieldInfo) : Term → Option Expr
  | .decimal digits => some (.const (ofDigits digits))
  | .unary .neg (.decimal digits) => some (.const (-ofDigits digits))
  | .counter => some .counter
  | .external n => some (.external n)
  | .name n => some (.field (field n))
  | .unary op t => (ofTerm field t).map (.unary op)
  | .group (.binary op l r) => do
    let l ← ofTerm field l
    let r ← ofTerm field r
    pure (.binary op l r)
  | _ => none

theorem ofDigits_toString (n : Nat) : ofDigits (toString n) = .ofInt n := by
  rw [ofDigits, Formula.numeralValue_toString]
  rfl

theorem ofTerm_unary {field : String → FieldInfo} {op : UnaryOp} {t : Term}
    (h : ∀ digits, t ≠ .decimal digits) : ofTerm field (.unary op t) = (ofTerm field t).map (.unary op) := by
  cases t with
  | decimal digits => exact absurd rfl (h digits)
  | _ => cases op <;> rfl

/-- A folded expression is what its term says: no sign of it is in front of a constant. -/
theorem ofTerm_term {e : Expr} (hfold : e.fold = .ok e) {field : String → FieldInfo}
    (hfield : ∀ info ∈ e.fields, field info.path = info) : ofTerm field e.term = some e := by
  induction e with
  | const v =>
    rw [term, constTerm]
    split
    · rename_i hneg
      have habs : -(v.toInt.natAbs : Int) = v.toInt := by omega
      rw [ofTerm, ofDigits_toString, ← Int64.ofInt_neg, habs, Int64.ofInt_toInt]
    · rename_i hpos
      have habs : (v.toInt.natAbs : Int) = v.toInt := by omega
      rw [ofTerm, ofDigits_toString, habs, Int64.ofInt_toInt]
  | field info =>
    rw [term, ofTerm, hfield info List.mem_cons_self]
  | external name => rfl
  | counter => rfl
  | unary op e ih =>
    obtain ⟨he, hunary⟩ := fold_unary_eq_self hfold
    have hterm : ∀ digits, e.term ≠ .decimal digits := by
      intro digits hdecimal
      cases e with
      | const v => cases hunary
      | _ => cases hdecimal
    rw [term, ofTerm_unary hterm, ih he hfield]
    rfl
  | binary op l r ihl ihr =>
    obtain ⟨hl, hr, -⟩ := fold_binary_eq_self hfold
    rw [term, ofTerm, ihl hl fun info hinfo => hfield info (List.mem_append_left _ hinfo),
      ihr hr fun info hinfo => hfield info (List.mem_append_right _ hinfo)]
    rfl

/-- Folded expressions with the same text are the same, if a path stands for one field in both. -/
theorem eq_of_text_eq (field : String → FieldInfo) {e e' : Expr} (hnamed : e.WellNamed)
    (hnamed' : e'.WellNamed) (hfold : e.fold = .ok e) (hfold' : e'.fold = .ok e')
    (hfield : ∀ info ∈ e.fields, field info.path = info)
    (hfield' : ∀ info ∈ e'.fields, field info.path = info) (h : e.text = e'.text) : e = e' := by
  have hspelling : e.spelling = e'.spelling := by rw [spelling_eq_text, spelling_eq_text, h]
  have htext : e.term.text tight ++ [] = e'.term.text tight ++ [] :=
    congrArg (· ++ []) (String.ofList_injective hspelling)
  obtain ⟨hterm, -⟩ := hnamed.printed.text_append_inj hnamed'.printed .nil .nil htext
  have hread := ofTerm_term hfold hfield
  rw [hterm, ofTerm_term hfold' hfield'] at hread
  exact (Option.some.inj hread).symm

end Expr

end RecordLayout
