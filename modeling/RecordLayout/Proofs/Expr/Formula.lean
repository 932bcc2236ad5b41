import RecordLayout.Expr.Resolve
import RecordLayout.Proofs.Expr.Folding
import RecordLayout.Proofs.Expr.Spelling

/-!
# Formulas and their texts

A formula is an expression as its author means it, with its grouping in the tree. Written with
parentheses only where the levels of the operators need them, it is read as that tree: its names
looked up, its constants folded, and refused exactly for a divisor that folds to zero
(`text_means_folded`).

What a formula without names comes to is computed here on integers, with no word of 64 bits and no
folding in it. A part that comes to an integer is to become that constant, and every other part the
operator that it is. That expressions are folded so while they are read is what has to be proved.
-/

namespace RecordLayout

open Script.Scanner (IsName blank_space)

/-- A letter or an underscore and then letters, digits and underscores. -/
structure Identifier where
  first : Char
  more : List Char
  isStart : first.isAlpha = true ∨ first = '_'
  isPart : ∀ c ∈ more, c.isAlphanum = true ∨ c = '_'

/-- The characters of an identifier. -/
def Identifier.text (n : Identifier) : String := .ofList (n.first :: n.more)

/-- The grammar takes an identifier as a name. -/
theorem Identifier.isName (n : Identifier) : IsName n.text.toList := by
  refine ⟨n.first, n.more, String.toList_ofList, ?_, fun c hc => ?_⟩
  · simpa [Script.isNameStart] using n.isStart
  · simpa [Script.isNamePart] using n.isPart c hc

/-- An expression as a tree. -/
inductive Formula where
  | literal (n : Nat) (bound : n < 2 ^ 63)
  | counter
  | external (name : Identifier)
  | name (first : Identifier) (more : List Identifier)
  | sign (s : Sign) (operand : Formula)
  | binary (op : BinaryOp) (left right : Formula)

namespace Formula

/-! ## The text of a formula -/

/-- The levels of the binary operators, the tightest first. The operators of a level group to the
left, and signs bind more tightly than any of them. -/
def levels : List (List BinaryOp) :=
  [[.mul, .div, .rem], [.add, .sub], [.shl, .shr], [.and], [.xor], [.or]]

/-- How loosely an operator binds. -/
def looseness (op : BinaryOp) : Nat := levels.findIdx (op ∈ ·)

/-- A binary operation that binds at least so loosely. -/
def isLoose (bound : Nat) : Formula → Bool
  | binary op _ _ => bound ≤ looseness op
  | _ => false

/-- Words in parentheses, if they are needed. -/
def enclose (needed : Bool) (words : List String) : List String :=
  if needed then "(" :: words ++ [")"] else words

/-- The word for a sign. -/
def signWord : Sign → String
  | .plus => "+"
  | .unary .neg => "-"
  | .unary .not => "~"

/-- The word for an operator. -/
def operatorWord : BinaryOp → String
  | .mul => "*"
  | .div => "/"
  | .rem => "%"
  | .add => "+"
  | .sub => "-"
  | .shl => "<<"
  | .shr => ">>"
  | .and => "&"
  | .xor => "^"
  | .or => "|"

/-- The words of a formula. Parentheses stand around a binary operation behind a sign, around a left
operand that is looser than its operator and around a right operand that is not tighter. -/
def lexemes : Formula → List String
  | literal n _ => [toString n]
  | counter => ["$"]
  | external n => ["$" ++ n.text]
  | name first more => [".".intercalate (first.text :: more.map Identifier.text)]
  | sign s f => signWord s :: enclose (f.isLoose 0) f.lexemes
  | binary op l r =>
    enclose (l.isLoose (looseness op + 1)) l.lexemes ++
      operatorWord op :: enclose (r.isLoose (looseness op)) r.lexemes

/-- The words with a space between. -/
def text (f : Formula) : String := " ".intercalate f.lexemes

/-! ## The meaning of a formula -/

/-- What a name stands for where every name is accepted. -/
inductive Reference where
  | field (info : FieldInfo)
  | external (name : String)

/-- The leaf of a reference. -/
def Reference.expr : Reference → Expr
  | field info => .field info
  | external n => .external n

/-- What names stand for where every name is accepted. -/
structure References where
  /-- A name as it is. -/
  field : String → Reference
  /-- A name marked as external. -/
  external : String → Reference

/-- The lookup that accepts every name. -/
def References.names (refs : References) : Names :=
  ⟨fun n => .ok (refs.field n).expr, fun n => .ok (refs.external n).expr⟩

/-- The operators that have no result for a zero divisor. -/
def divisions : List BinaryOp := [.div, .rem]

/-- The integer that a formula comes to, with results that wrap to signed words. It comes to none if
there is a name or the counter in it, or a zero divisor. -/
def integer? : Formula → Option Int
  | literal n _ => some n
  | counter | external _ | name _ _ => none
  | sign .plus f => f.integer?
  | sign (.unary op) f => do
    let a ← f.integer?
    some (wrapped (op.onInts a))
  | binary op l r => do
    let a ← l.integer?
    let b ← r.integer?
    if op ∈ divisions ∧ b = 0 then none else some (wrapped (op.onInts a b))

/-- Some division in the formula has a right operand that comes to zero. -/
def DividesByZero : Formula → Prop
  | sign _ f => f.DividesByZero
  | binary op l r =>
    l.DividesByZero ∨ r.DividesByZero ∨ (op ∈ divisions ∧ r.integer? = some 0)
  | _ => False

variable (refs : References)

/-- The expression of a formula that does not divide by zero: a plus sign is dropped, and an operator
that comes to an integer is that constant. -/
def folded : Formula → Expr
  | literal n _ => .const (.ofInt n)
  | counter => .counter
  | external n => (refs.external n.text).expr
  | name first more => (refs.field (".".intercalate (first.text :: more.map Identifier.text))).expr
  | sign .plus f => f.folded
  | sign (.unary op) f =>
    match (sign (.unary op) f).integer? with
    | some v => .const (.ofInt v)
    | none => .unary op f.folded
  | binary op l r =>
    match (binary op l r).integer? with
    | some v => .const (.ofInt v)
    | none => .binary op l.folded r.folded

/-! ## Folding a formula -/

/-- The operators that folding refuses for a zero operand are the divisions. -/
theorem divides_iff (op : BinaryOp) : op.divides = true ↔ op ∈ divisions := by
  cases op <;> simp [BinaryOp.divides, divisions]

/-- A wrapped integer is the integer of a word. -/
theorem toInt_ofInt_wrapped (n : Int) : (Int64.ofInt (wrapped n)).toInt = wrapped n := by
  rw [Int64.toInt_ofInt, wrapped]
  exact Int.bmod_bmod

/-- What a formula comes to is the integer of a word. -/
theorem toInt_of_integer? {f : Formula} {n : Int} (h : f.integer? = some n) :
    (Int64.ofInt n).toInt = n := by
  induction f generalizing n with
  | literal m bound =>
    cases h
    exact Int64.toInt_ofInt_of_le (by omega) (by omega)
  | counter | external | name => cases h
  | sign s f ih =>
    cases s with
    | plus => exact ih h
    | unary op =>
      obtain ⟨a, -, h⟩ := Option.bind_eq_some_iff.mp h
      cases h
      exact toInt_ofInt_wrapped _
  | binary op l r =>
    obtain ⟨a, -, h⟩ := Option.bind_eq_some_iff.mp h
    obtain ⟨b, -, h⟩ := Option.bind_eq_some_iff.mp h
    split at h
    · cases h
    · cases h
      exact toInt_ofInt_wrapped _

variable (refs : References)

/-- The expression of a formula is a constant exactly if the formula comes to an integer. -/
theorem asConst_folded (f : Formula) : (f.folded refs).asConst = f.integer?.map Int64.ofInt := by
  have hleaf (found : Reference) : found.expr.asConst = none := by cases found <;> rfl
  induction f with
  | literal | counter => rfl
  | external n => exact hleaf _
  | name first more => exact hleaf _
  | sign s f ih =>
    cases s with
    | plus => exact ih
    | unary op =>
      rw [folded]
      cases (sign (.unary op) f).integer? <;> rfl
  | binary op l r =>
    rw [folded]
    cases (binary op l r).integer? <;> rfl

/-- A sign on the expression of a formula is folded to the expression of the formula with the sign. -/
theorem foldUnary_folded (op : UnaryOp) (f : Formula) :
    Expr.foldUnary op (f.folded refs) = (sign (.unary op) f).folded refs := by
  have hconst := asConst_folded refs f
  rw [folded, integer?]
  cases hf : f.integer? with
  | none =>
    rw [hf] at hconst
    exact Expr.foldUnary_of_asConst_none hconst
  | some n =>
    rw [hf] at hconst
    rw [Expr.eq_const_of_asConst hconst]
    -- The word of the operator is the one that the integer wraps to.
    have hword : op.apply (.ofInt n) = .ofInt (wrapped (op.onInts n)) := by
      rw [← Int64.toInt_inj, UnaryOp.toInt_apply, toInt_of_integer? hf, toInt_ofInt_wrapped]
    exact congrArg Expr.const hword

/-- The expression of a formula is the constant zero exactly if the formula comes to zero. -/
theorem folded_eq_zero_iff (f : Formula) : f.folded refs = .const 0 ↔ f.integer? = some 0 := by
  have hconst := asConst_folded refs f
  cases hf : f.integer? with
  | none =>
    rw [hf] at hconst
    constructor
    · intro hzero
      rw [hzero] at hconst
      cases hconst
    · nofun
  | some n =>
    rw [hf] at hconst
    have hword := toInt_of_integer? hf
    rw [Expr.eq_const_of_asConst hconst, Expr.const.injEq, Option.some_inj, ← Int64.toInt_inj, hword]
    rfl

/-- An operator on the expressions of two formulas is folded to the expression of the formula with the
operator, but for a divisor that comes to zero. -/
theorem foldBinary_folded {op : BinaryOp} {l r : Formula}
    (hdivisor : ¬ (op ∈ divisions ∧ r.integer? = some 0)) :
    Expr.foldBinary op (l.folded refs) (r.folded refs) = some ((binary op l r).folded refs) := by
  have hleft := asConst_folded refs l
  have hright := asConst_folded refs r
  have hstands (h : (l.folded refs).asConst = none ∨ (r.folded refs).asConst = none) :
      Expr.foldBinary op (l.folded refs) (r.folded refs) =
        some (.binary op (l.folded refs) (r.folded refs)) :=
    Expr.foldBinary_of_asConst_none (by rwa [divides_iff, folded_eq_zero_iff]) h
  rw [folded, integer?]
  cases hl : l.integer? with
  | none =>
    rw [hl] at hleft
    exact hstands (.inl hleft)
  | some a =>
    cases hr : r.integer? with
    | none =>
      rw [hr] at hright
      exact hstands (.inr hright)
    | some b =>
      rw [hl] at hleft
      rw [hr] at hright
      rw [hr, Option.some_inj] at hdivisor
      rw [Expr.eq_const_of_asConst hleft, Expr.eq_const_of_asConst hright]
      simp only [Option.bind_eq_bind, Option.bind_some, if_neg hdivisor]
      refine Expr.foldBinary_const ?_
      -- The words compute what the integers do, as the divisor is not zero.
      have hvalue := op.toInt_value? (.ofInt a) (.ofInt b)
      rw [toInt_of_integer? hl, toInt_of_integer? hr, if_neg (by rwa [divides_iff])] at hvalue
      obtain ⟨v, hv, hword⟩ := Option.map_eq_some_iff.mp hvalue
      rw [hv, Option.some_inj, ← Int64.toInt_inj, hword, toInt_ofInt_wrapped]

/-! ## The term of a formula -/

/-- A term in parentheses, if they are needed. -/
def encloseTerm (needed : Bool) (t : Term) : Term := if needed then .group t else t

/-- The formula with its parentheses. -/
def term : Formula → Term
  | literal n _ => .decimal (toString n)
  | counter => .counter
  | external n => .external n.text
  | name first more => .name (".".intercalate (first.text :: more.map Identifier.text))
  | sign s f => s.before (encloseTerm (f.isLoose 0) f.term)
  | binary op l r =>
    .binary op (encloseTerm (l.isLoose (looseness op + 1)) l.term)
      (encloseTerm (r.isLoose (looseness op)) r.term)

/-- A space behind a sign and inside parentheses, and one mark for the counter. -/
def spaced : Term.Style where
  pad := [' ']
  blank := blank_space
  mark := ['$']
  isMark := .inl rfl

/-- The characters of words with a space between. -/
def spacedText (words : List String) : List Char := (" ".intercalate words).toList

/-- Words and more words have a space between them. -/
theorem spacedText_append {a b : List String} (ha : a ≠ []) (hb : b ≠ []) :
    spacedText (a ++ b) = spacedText a ++ ' ' :: spacedText b := by
  induction a with
  | nil => exact absurd rfl ha
  | cons w a ih =>
    cases a with
    | nil =>
      obtain ⟨v, b, rfl⟩ := List.exists_cons_of_ne_nil hb
      simp [spacedText, String.toList_intercalate]
    | cons v a =>
      have h := ih (List.cons_ne_nil v a)
      simp only [spacedText, String.toList_intercalate, List.cons_append, List.map_cons,
        List.intercalate_cons_cons] at h ⊢
      rw [h]
      simp

theorem spacedText_singleton (w : String) : spacedText [w] = w.toList := by
  simp [spacedText]

theorem lexemes_ne_nil (f : Formula) : f.lexemes ≠ [] := by
  cases f <;> simp [lexemes]

theorem enclose_ne_nil (needed : Bool) (f : Formula) : enclose needed f.lexemes ≠ [] := by
  cases needed
  · exact f.lexemes_ne_nil
  · simp [enclose]

theorem spacedText_enclose {f : Formula} (h : spacedText f.lexemes = f.term.text spaced)
    (needed : Bool) :
    spacedText (enclose needed f.lexemes) = (encloseTerm needed f.term).text spaced := by
  cases needed with
  | false => exact h
  | true =>
    show spacedText (["("] ++ (f.lexemes ++ [")"])) = _
    rw [spacedText_append (by simp) (by simp), spacedText_append f.lexemes_ne_nil (by simp), h]
    simp [spacedText_singleton, encloseTerm, Term.text, spaced]

theorem signWord_eq (s : Sign) : signWord s = s.symbol := by
  rcases s with _ | _ | _ <;> rfl

theorem operatorWord_eq (op : BinaryOp) : operatorWord op = op.symbol := by
  cases op <;> rfl

/-- The text of a formula is the text of its term. -/
theorem spacedText_lexemes (f : Formula) : spacedText f.lexemes = f.term.text spaced := by
  induction f with
  | sign s f ih =>
    have hsplit := spacedText_append (List.cons_ne_nil s.symbol []) (enclose_ne_nil (f.isLoose 0) f)
    rw [spacedText_singleton, spacedText_enclose ih] at hsplit
    rw [lexemes, signWord_eq, ← List.singleton_append (x := s.symbol), hsplit]
    cases s <;> rfl
  | binary op l r ihl ihr =>
    have hright := spacedText_append (List.cons_ne_nil op.symbol [])
      (enclose_ne_nil (r.isLoose (looseness op)) r)
    have hsplit := spacedText_append (enclose_ne_nil (l.isLoose (looseness op + 1)) l)
      (List.cons_ne_nil op.symbol (enclose (r.isLoose (looseness op)) r.lexemes))
    rw [spacedText_singleton, spacedText_enclose ihr] at hright
    rw [spacedText_enclose ihl, ← List.singleton_append (x := op.symbol), hright] at hsplit
    rw [lexemes, operatorWord_eq, ← List.singleton_append (x := op.symbol), hsplit]
    rfl
  | _ => simp [lexemes, term, spacedText_singleton, Term.text, spaced]

/-! ## The term is well-formed -/

theorem looseness_add_level (op : BinaryOp) : looseness op + op.level = 5 := by
  cases op <;> rfl

/-- An operand that binds too loosely is in parentheses. -/
theorem level_encloseTerm {f : Formula} {bound n : Nat}
    (hn : n ∈ (encloseTerm (f.isLoose bound) f.term).level?) :
    ∃ op, n = BinaryOp.level op ∧ looseness op < bound := by
  cases hloose : f.isLoose bound with
  | true => simp [hloose, encloseTerm, Term.level?] at hn
  | false =>
    simp only [hloose, encloseTerm, Bool.false_eq_true, if_false] at hn
    cases f with
    | binary op l r =>
      simp only [isLoose, decide_eq_false_iff_not, Nat.not_le] at hloose
      exact ⟨op, by simpa [term, Term.level?] using hn.symm, hloose⟩
    | sign s f => cases s <;> simp [term, Sign.before, Term.level?] at hn
    | _ => simp [term, Term.level?] at hn

theorem wellFormed_encloseTerm {t : Term} (h : t.WellFormed) (needed : Bool) :
    (encloseTerm needed t).WellFormed := by
  cases needed <;> exact h

theorem wellFormed_numeral (n : Nat) : (Term.decimal (toString n)).WellFormed := by
  have hdigits : (toString n).toList = Nat.toDigits 10 n := Nat.toList_repr
  refine ⟨?_, ?_⟩ <;> rw [hdigits]
  · exact Nat.toDigits_ne_nil
  · exact fun c hc => Nat.isDigit_of_mem_toDigits (by decide) (by decide) hc

/-- The parentheses that a formula is written with are those that its term needs. -/
theorem wellFormed_term (f : Formula) : f.term.WellFormed := by
  induction f with
  | literal n bound => exact wellFormed_numeral n
  | counter => trivial
  | external n => exact n.isName
  | name first more =>
    refine ⟨_, _, rfl, List.forall_mem_cons.mpr ⟨first.isName, fun part hpart => ?_⟩⟩
    obtain ⟨n, -, rfl⟩ := List.mem_map.mp hpart
    exact n.isName
  | sign s f ih =>
    have hoperand : (encloseTerm (f.isLoose 0) f.term).level? = none := by
      refine Option.eq_none_iff_forall_ne_some.mpr fun n hn => ?_
      obtain ⟨op, -, hop⟩ := level_encloseTerm hn
      exact Nat.not_lt_zero _ hop
    cases s <;> exact ⟨wellFormed_encloseTerm ih _, hoperand⟩
  | binary op l r ihl ihr =>
    have hop := looseness_add_level op
    refine ⟨wellFormed_encloseTerm ihl _, wellFormed_encloseTerm ihr _, ?_, ?_⟩
    · intro n hn
      obtain ⟨inner, rfl, hinner⟩ := level_encloseTerm hn
      have := looseness_add_level inner
      omega
    · intro n hn
      obtain ⟨inner, rfl, hinner⟩ := level_encloseTerm hn
      have := looseness_add_level inner
      omega

/-- The text of a formula is read as the formula with its parentheses. -/
theorem termOfText_text (f : Formula) : Term.ofText f.text = .ok f.term := by
  have hread := f.wellFormed_term.ofText_text spaced
  rw [← spacedText_lexemes] at hread
  rwa [spacedText, String.ofList_toList] at hread

/-! ## The expression of the term -/

/-- The number that the numeral of a number has. -/
theorem numeralValue_toString (n : Nat) : Term.numeralValue 10 (toString n) = n := by
  have hdigits : (toString n).toList = Nat.toDigits 10 n := Nat.toList_repr
  have hvalue : Term.numeralValue 10 (toString n) = Nat.ofDigitChars 10 (Nat.toDigits 10 n) 0 := by
    rw [Term.numeralValue, Nat.ofDigitChars, hdigits]
    refine List.foldl_ext _ _ _ fun a c hc => ?_
    have hdigit := Nat.isDigit_of_mem_toDigits (by decide) (by decide) hc
    rw [Term.digitValue, if_pos hdigit]
  rw [hvalue, Nat.ofDigitChars_ten_toDigits]

/-- A decimal numeral is read as its number. -/
theorem numeral_toString {n : Nat} (h : n < 2 ^ 63) :
    Term.numeral 10 (toString n) = some (.const (.ofNat n)) := by
  simp only [Term.numeral, numeralValue_toString, h, if_true]

theorem resolve_encloseTerm (names : Names) (needed : Bool) (t : Term) :
    (encloseTerm needed t).resolve names = t.resolve names := by
  cases needed <;> rfl

/-- The term of a formula becomes the formula's expression, or a divisor is refused. -/
theorem resolve_term (f : Formula) :
    (¬ f.DividesByZero ∧ f.term.resolve refs.names = .ok (f.folded refs)) ∨
      (f.DividesByZero ∧ ∃ op ∈ divisions, f.term.resolve refs.names = .error (.constantZero op)) := by
  induction f with
  | literal n bound =>
    refine .inl ⟨id, ?_⟩
    simp only [term, Term.resolve, numeral_toString bound]
    rfl
  | counter => exact .inl ⟨id, rfl⟩
  | external n => exact .inl ⟨id, rfl⟩
  | name first more => exact .inl ⟨id, rfl⟩
  | sign s f ih =>
    rw [← resolve_encloseTerm refs.names (f.isLoose 0)] at ih
    cases s with
    | plus => exact ih
    | unary op =>
      rcases ih with ⟨hdivides, hresolve⟩ | ⟨hdivides, divisor, hdivisor, hresolve⟩
      · refine .inl ⟨hdivides, ?_⟩
        rw [term, Sign.before, Term.resolve, hresolve, ← foldUnary_folded]
        rfl
      · refine .inr ⟨hdivides, divisor, hdivisor, ?_⟩
        rw [term, Sign.before, Term.resolve, hresolve]
        rfl
  | binary op l r ihl ihr =>
    rw [← resolve_encloseTerm refs.names (l.isLoose (looseness op + 1))] at ihl
    rw [← resolve_encloseTerm refs.names (r.isLoose (looseness op))] at ihr
    rw [DividesByZero, term, Term.resolve]
    rcases ihl with ⟨hl, hleft⟩ | ⟨hl, divisor, hdivisor, hleft⟩
    · rcases ihr with ⟨hr, hright⟩ | ⟨hr, divisor, hdivisor, hright⟩
      · simp only [hleft, hright, bind, Except.bind]
        by_cases hzero : op ∈ divisions ∧ r.integer? = some 0
        · have hrefused : Expr.foldBinary op (l.folded refs) (r.folded refs) = none :=
            Expr.foldBinary_eq_none_iff.mpr
              ⟨(divides_iff op).mpr hzero.1, (folded_eq_zero_iff refs r).mpr hzero.2⟩
          refine .inr ⟨.inr (.inr hzero), op, hzero.1, ?_⟩
          rw [hrefused]
        · refine .inl ⟨fun h => h.elim hl fun h => h.elim hr hzero, ?_⟩
          rw [foldBinary_folded refs hzero]
      · exact .inr ⟨.inr (.inl hr), divisor, hdivisor, by rw [hleft, hright]; rfl⟩
    · exact .inr ⟨.inl hl, divisor, hdivisor, by rw [hleft]; rfl⟩

/-- The text of a formula spells the formula's expression. It is refused exactly if the formula
divides by zero, and then for such a divisor, which is an error of syntax. -/
theorem text_means_folded (f : Formula) :
    (∀ e, Expr.ofText refs.names f.text = .ok e ↔ ¬ f.DividesByZero ∧ e = f.folded refs) ∧
      ((∃ cause, Expr.ofText refs.names f.text = .error cause) ↔ f.DividesByZero) ∧
      ∀ cause, Expr.ofText refs.names f.text = .error cause →
        cause.isReference = false ∧ ∃ op ∈ divisions, cause = .constantZero op := by
  have hread : Expr.ofText refs.names f.text = f.term.resolve refs.names := by
    rw [Expr.ofText, termOfText_text]
  rw [hread]
  rcases resolve_term refs f with ⟨hdivides, hresolve⟩ | ⟨hdivides, op, hdivisor, hresolve⟩
  · rw [hresolve]
    refine ⟨fun e => ⟨?_, ?_⟩, ⟨nofun, fun h => absurd h hdivides⟩, nofun⟩
    · rintro ⟨⟩
      exact ⟨hdivides, rfl⟩
    · rintro ⟨-, rfl⟩
      rfl
  · rw [hresolve]
    refine ⟨fun e => ⟨nofun, fun h => absurd hdivides h.1⟩, ⟨fun _ => hdivides, fun _ => ⟨_, rfl⟩⟩, ?_⟩
    rintro cause ⟨⟩
    exact ⟨rfl, op, hdivisor, rfl⟩

/-- The product is a constant, and its text needs no parentheses. -/
example :
    let f := binary .mul (sign (.unary .neg) (literal 2 (by decide))) (literal 3 (by decide))
    f.text = "- 2 * 3" ∧ f.folded refs = .const (-6) :=
  ⟨by decide, rfl⟩

end Formula

end RecordLayout
