import RecordLayout.Expr.Render
import RecordLayout.Proofs.Expr.Folding
import RecordLayout.Proofs.Expr.Formula
import RecordLayout.Proofs.Expr.Reading
import RecordLayout.Proofs.Expr.Stopping
import RecordLayout.Proofs.Layout.Scoping

/-!
# Reading printed expressions

The printer, which knows an expression only by its pre-order list, writes the text of a term: that
of the expression, with parentheses around every binary operation (`render_eq`). A folded expression
is read back from its text, with two exceptions. Behind the sign of the least constant its digits
are too large a number, and an external whose name has a point in it is read up to the point, where
nothing can go on. Such a text is refused (`ofText_render`).
-/

namespace RecordLayout

open Script Script.Scanner

/-! ## Dotted names -/

namespace Script.Scanner

theorem IsName.undotted {name : List Char} (h : IsName name) : '.' ∉ name :=
  fun hdot => absurd (h.namePart '.' hdot) (by decide)

/-- A path is a name, or begins with a name and a point. -/
theorem IsPath.cases {path : String} (h : IsPath path) :
    IsName path.toList ∨ ∃ first later, path.toList = first ++ '.' :: later ∧ IsName first := by
  obtain ⟨first, more, rfl, hparts⟩ := h
  rw [toList_parts]
  have hfirst := hparts first List.mem_cons_self
  cases more with
  | nil =>
    rw [laterParts, List.flatMap_nil, List.append_nil]
    exact .inl hfirst
  | cons second more => exact .inr ⟨first.toList, _, rfl, hfirst⟩

/-- A path is a single name exactly if it has no point. -/
theorem IsPath.isName_iff {path : String} (h : IsPath path) :
    IsName path.toList ↔ '.' ∉ path.toList := by
  refine ⟨IsName.undotted, fun hdot => h.cases.resolve_right ?_⟩
  rintro ⟨first, later, hsplit, -⟩
  rw [hsplit] at hdot
  exact hdot (List.mem_append_right first List.mem_cons_self)

end Script.Scanner

namespace Expr

/-! ## The term of an expression -/

/-- No blanks, and two marks for the counter. -/
def tight : Term.Style where
  pad := []
  blank := blank_nil
  mark := ['$', '$']
  isMark := .inr rfl

/-- The digits of a constant, with a sign before them if it is negative. -/
def constTerm (v : Int64) : Term :=
  let digits := .decimal (toString v.toInt.natAbs)
  if v.toInt < 0 then .unary .neg digits else digits

/-- The term that the printer writes: every binary operation stands in parentheses. -/
def term : Expr → Term
  | const v => constTerm v
  | field info => .name info.path
  | external name => .external name
  | counter => .counter
  | unary op e => .unary op e.term
  | binary op l r => .group (.binary op l.term r.term)

/-- The text of that term. -/
def spelling (e : Expr) : String := String.ofList (e.term.text tight)

/-- A word is written with its sign and the digits of its amount. -/
theorem toString_int64 (v : Int64) :
    toString v = if v.toInt < 0 then "-" ++ toString v.toInt.natAbs else toString v.toInt.natAbs := by
  show toString v.toInt = _
  cases v.toInt with
  | ofNat n => exact (if_neg (Int.not_lt.mpr (Int.natCast_nonneg n))).symm
  | negSucc n => exact (if_pos (Int.negSucc_lt_zero n)).symm

theorem spelling_const (v : Int64) : (const v).spelling = toString v := by
  rw [toString_int64, spelling, term, constTerm]
  split
  · exact String.toList_injective (by simp [Term.text, tight, Sign.symbol, UnaryOp.symbol])
  · rw [Term.text, String.ofList_toList]

theorem spelling_unary (op : UnaryOp) (e : Expr) :
    (unary op e).spelling = unaryText op e.spelling :=
  String.toList_injective (by simp [spelling, term, unaryText, Term.text, tight, Sign.symbol])

theorem spelling_binary (op : BinaryOp) (l r : Expr) :
    (binary op l r).spelling = binaryText op l.spelling r.spelling :=
  String.toList_injective (by simp [spelling, term, binaryText, Term.text, tight])

/-- What the printer has read of an expression goes to the operators that wait, as a text. -/
theorem foldl_take (e : Expr) (p : Printer) :
    e.items.foldl Printer.take p = Printer.settle p.out e.spelling p.frames := by
  induction e generalizing p with
  | const v =>
    rw [spelling_const]
    rfl
  | field info =>
    rw [spelling, term, Term.text, String.ofList_toList]
    rfl
  | external name =>
    have htext : (external name).spelling = "$" ++ name :=
      String.toList_injective (by simp [spelling, term, Term.text])
    rw [htext]
    rfl
  | counter => rfl
  | unary op e ih =>
    rw [items, List.foldl_cons, ih, spelling_unary]
    rfl
  | binary op l r ihl ihr =>
    rw [items, List.foldl_cons, List.foldl_append, ihl, spelling_binary]
    exact ihr _

/-- The printer writes the text of the term. -/
theorem render_eq (e : Expr) : e.render = e.spelling := by
  rw [render, foldl_take]
  rfl

/-! ## Leaves -/

/-- The constants in an expression. -/
def consts : Expr → List Int64
  | const v => [v]
  | unary _ e => e.consts
  | binary _ l r => l.consts ++ r.consts
  | field _ | external _ | counter => []

/-- The externals in an expression. -/
def externals : Expr → List String
  | external name => [name]
  | unary _ e => e.externals
  | binary _ l r => l.externals ++ r.externals
  | const _ | field _ | counter => []

/-- The text of the expression has no number that is too large and no external with a point. -/
structure Legible (e : Expr) : Prop where
  bounded : ∀ v ∈ e.consts, v ≠ Int64.minValue
  undotted : ∀ n ∈ e.externals, '.' ∉ n.toList

/-- Fields and externals have names of the grammar, which may have points in them. -/
structure WellNamed (e : Expr) : Prop where
  field : ∀ info ∈ e.fields, IsPath info.path
  external : ∀ n ∈ e.externals, IsPath n

variable {e l r : Expr} {op : BinaryOp}

theorem WellNamed.left (h : (binary op l r).WellNamed) : l.WellNamed :=
  ⟨fun info hinfo => h.field info (List.mem_append_left _ hinfo),
    fun n hn => h.external n (List.mem_append_left _ hn)⟩

theorem WellNamed.right (h : (binary op l r).WellNamed) : r.WellNamed :=
  ⟨fun info hinfo => h.field info (List.mem_append_right _ hinfo),
    fun n hn => h.external n (List.mem_append_right _ hn)⟩

theorem WellNamed.operand {op : UnaryOp} (h : (unary op e).WellNamed) : e.WellNamed :=
  ⟨h.field, h.external⟩

/-! ## Folded expressions -/

/-- What folding leaves has nothing to fold any more. -/
theorem kept_folded : Kept fun e => e.fold = .ok e where
  const _ := rfl
  counter := rfl
  unary op e he := by
    rcases foldUnary_eq op e with h | ⟨v, h⟩
    · rw [h, fold, he]
      exact congrArg Except.ok h
    · rw [h]
      rfl
  binary op l r e hl hr hfold := by
    rcases foldBinary_eq hfold with rfl | ⟨v, rfl⟩
    · simp only [fold, hl, hr, hfold, bind, Except.bind]
    · rfl

/-- An operation that folding leaves as it is has operands that are folded. -/
theorem fold_unary_eq_self {op : UnaryOp} (h : (unary op e).fold = .ok (unary op e)) :
    e.fold = .ok e ∧ foldUnary op e = unary op e := by
  obtain ⟨e', he, h⟩ := except_bind_eq_ok.mp h
  have h : foldUnary op e' = unary op e := Except.ok.inj h
  rcases foldUnary_eq op e' with heq | ⟨v, heq⟩
  · obtain ⟨-, rfl⟩ := Expr.unary.inj (heq.symm.trans h)
    exact ⟨he, h⟩
  · cases heq.symm.trans h

/-- The operands of a folded operation are folded, and not both are constants. -/
theorem fold_binary_eq_self (h : (binary op l r).fold = .ok (binary op l r)) :
    l.fold = .ok l ∧ r.fold = .ok r ∧ foldBinary op l r = some (binary op l r) := by
  obtain ⟨l', hl, h⟩ := except_bind_eq_ok.mp h
  obtain ⟨r', hr, h⟩ := except_bind_eq_ok.mp h
  split at h
  · rename_i hfold
    cases h
    rcases foldBinary_eq hfold with heq | ⟨v, heq⟩
    · obtain ⟨-, rfl, rfl⟩ := Expr.binary.inj heq
      exact ⟨hl, hr, hfold⟩
    · cases heq
  · cases h

/-! ## Reading the term back -/

/-- The term of a constant is a numeral or a group. -/
theorem closed_constTerm (v : Int64) : (constTerm v).Closed := by
  have hdigits := Formula.wellFormed_numeral v.toInt.natAbs
  unfold constTerm
  split
  · exact ⟨⟨hdigits, rfl⟩, rfl⟩
  · exact ⟨hdigits, rfl⟩

/-- Without points in externals the term is one that its text spells. -/
theorem closed_term (h : e.WellNamed) (hdots : ∀ n ∈ e.externals, '.' ∉ n.toList) :
    e.term.Closed := by
  induction e with
  | const v => exact closed_constTerm v
  | field info => exact ⟨h.field info List.mem_cons_self, rfl⟩
  | external name =>
    have hname := h.external name List.mem_cons_self
    exact ⟨hname.isName_iff.mpr (hdots name List.mem_cons_self), rfl⟩
  | counter => exact ⟨trivial, rfl⟩
  | unary op e ih => exact ⟨ih h.operand hdots, rfl⟩
  | binary op l r ihl ihr =>
    have hl := ihl h.left fun n hn => hdots n (List.mem_append_left _ hn)
    have hr := ihr h.right fun n hn => hdots n (List.mem_append_right _ hn)
    refine ⟨⟨hl.1, hr.1, ?_, ?_⟩, rfl⟩
    · rw [hl.2]
      exact nofun
    · rw [hr.2]
      exact nofun

/-- The digits of the least constant. -/
def tooLarge : String := toString (2 ^ 63)

/-- A constant is read from its digits and its sign, but for the least one. -/
theorem resolve_constTerm (names : Names) (v : Int64) :
    (constTerm v).resolve names =
      if v = Int64.minValue then .error (.badNumber tooLarge) else .ok (.const v) := by
  have hle := Int64.le_toInt v
  have hlt := Int64.toInt_lt v
  by_cases hmin : v = Int64.minValue
  · subst hmin
    rw [if_pos rfl]
    have hnone : Term.numeral 10 tooLarge = none := by decide
    have hdigits : (Term.decimal tooLarge).resolve names = .error (.badNumber tooLarge) := by
      simp only [Term.resolve, hnone]
    exact congrArg (· >>= fun e => pure (foldUnary .neg e)) hdigits
  · have hne : v.toInt ≠ -2 ^ 63 := fun h =>
      hmin (Int64.toInt_inj.mp (h.trans Int64.toInt_minValue.symm))
    have hbound : v.toInt.natAbs < 2 ^ 63 := by omega
    rw [if_neg hmin, constTerm]
    split
    · rename_i hneg
      have habs : -(v.toInt.natAbs : Int) = v.toInt := by omega
      have hvalue : -(Int64.ofNat v.toInt.natAbs) = v := by
        apply Int64.toInt_inj.mp
        rw [Int64.toInt_neg, Int64.toInt_ofNat_of_lt hbound, habs]
        exact v.toInt_bmod_size
      simp only [Term.resolve, Formula.numeral_toString hbound]
      exact congrArg (Except.ok ∘ const) hvalue
    · have hvalue : Int64.ofNat v.toInt.natAbs = v := by
        apply Int64.toInt_inj.mp
        rw [Int64.toInt_ofNat_of_lt hbound]
        omega
      simp only [Term.resolve, Formula.numeral_toString hbound, hvalue]

/-- The names stand for the fields and externals of the expression. -/
structure ResolvedBy (names : Names) (e : Expr) : Prop where
  field : ∀ info ∈ e.fields, names.field info.path = .ok (.field info)
  external : ∀ n ∈ e.externals, names.external n = .ok (.external n)

section

variable {names : Names}

theorem ResolvedBy.left (h : (binary op l r).ResolvedBy names) : l.ResolvedBy names :=
  ⟨fun info hinfo => h.field info (List.mem_append_left _ hinfo),
    fun n hn => h.external n (List.mem_append_left _ hn)⟩

theorem ResolvedBy.right (h : (binary op l r).ResolvedBy names) : r.ResolvedBy names :=
  ⟨fun info hinfo => h.field info (List.mem_append_right _ hinfo),
    fun n hn => h.external n (List.mem_append_right _ hn)⟩

/-- The term of a folded expression becomes the expression, with nothing to fold in it; only the
least constant is refused. -/
theorem resolve_term (hfold : e.fold = .ok e) (hnames : e.ResolvedBy names) :
    e.term.resolve names =
      if Int64.minValue ∈ e.consts then .error (.badNumber tooLarge) else .ok e := by
  induction e with
  | const v =>
    rw [term, resolve_constTerm]
    simp only [consts, List.mem_singleton, eq_comm]
  | field info => exact hnames.field info List.mem_cons_self
  | external name => exact hnames.external name List.mem_cons_self
  | counter => rfl
  | unary op e ih =>
    obtain ⟨he, hunary⟩ := fold_unary_eq_self hfold
    rw [term, Term.resolve, ih he ⟨hnames.field, hnames.external⟩, consts]
    split
    · rfl
    · exact congrArg Except.ok hunary
  | binary op l r ihl ihr =>
    obtain ⟨hl, hr, hbinary⟩ := fold_binary_eq_self hfold
    rw [term, Term.resolve, Term.resolve, ihl hl hnames.left, ihr hr hnames.right, consts]
    by_cases hleft : Int64.minValue ∈ l.consts
    · rw [if_pos hleft, if_pos (List.mem_append_left _ hleft)]
      rfl
    · rw [if_neg hleft]
      by_cases hright : Int64.minValue ∈ r.consts
      · rw [if_pos hright, if_pos (List.mem_append_right _ hright)]
        rfl
      · rw [if_neg hright, if_neg (List.not_mem_append hleft hright)]
        simp only [hbinary, bind, Except.bind]

end

/-! ## Points in externals -/

/-- The text of a binary operation is its operands with the operator and spaces between, in
parentheses. -/
theorem text_binary (op : BinaryOp) (l r : Expr) (rest : List Char) :
    (binary op l r).term.text tight ++ rest =
      '(' :: (l.term.text tight ++ ([' '] ++ (op.symbol.toList ++ ' ' ::
        (r.term.text tight ++ ')' :: rest)))) := by
  simp [term, Term.text, tight]

/-- An operand whose externals have no points is read back. -/
theorem readsBack_term (h : e.WellNamed) (hdots : ∀ n ∈ e.externals, '.' ∉ n.toList) :
    e.term.ReadsBack tight := by
  obtain ⟨hwell, hlevel⟩ := closed_term h hdots
  have hback : ∀ u ∈ e.term.operands, u.ReadsBack tight := hwell.readsBack
  rw [Term.operands_of_level?_eq_none hlevel, List.forall_mem_singleton] at hback
  exact hback

/-- An operand with a point in an external is not read to its end. The parentheses of a binary
operation are not closed, since one of its operands stops at the point or is none itself. -/
theorem sticks_term (h : e.WellNamed) (hdots : ¬ ∀ n ∈ e.externals, '.' ∉ n.toList) {depth : Nat}
    (hdepth : (e.term.text tight).length ≤ depth) {rest : List Char} (hrest : Bounded rest) :
    Sticks (Scanner.expr depth) (e.term.text tight ++ rest) := by
  induction e generalizing depth rest with
  | const | field | counter => exact absurd nofun hdots
  | external name =>
    have hname := h.external name List.mem_cons_self
    rcases hname.cases with hname | ⟨first, later, hsplit, hfirst⟩
    · refine absurd (fun n hn => ?_) hdots
      rw [List.mem_singleton.mp hn]
      exact hname.undotted
    · rw [term, Term.text, hsplit, List.cons_append, List.append_assoc]
      exact sticks_external hfirst (later ++ rest)
  | unary op e ih =>
    rw [term, Term.text, List.length_append] at hdepth
    have he := ih h.operand hdots ((Nat.le_add_left _ _).trans hdepth) hrest
    rw [term, Term.text, List.append_assoc, List.append_assoc]
    exact he.sign (.unary op) tight.blank
  | binary op l r ihl ihr =>
    have hlength := congrArg List.length (text_binary op l r rest)
    simp only [List.length_cons, List.length_append] at hlength
    obtain ⟨depth, rfl⟩ : ∃ n, depth = n + 1 := ⟨depth - 1, by omega⟩
    have hl : (l.term.text tight).length ≤ depth := by omega
    have hr : (r.term.text tight).length ≤ depth := by omega
    have hclose : Bounded (')' :: rest) := .cons (by decide) (by decide) (by decide)
    have hspace : Bounded ([' '] ++ (op.symbol.toList ++ ' ' ::
        (r.term.text tight ++ ')' :: rest))) := .cons (by decide) (by decide) (by decide)
    rw [text_binary]
    by_cases hleft : ∀ n ∈ l.externals, '.' ∉ n.toList
    · have hright : ¬ ∀ n ∈ r.externals, '.' ∉ n.toList := fun hright =>
        hdots fun n hn => (List.mem_append.mp hn).elim (hleft n) (hright n)
      have hread := readsBack_term h.left hleft depth hl _ hspace
      have hstick := ihr h.right hright hr hclose
      exact .inl ((hstick.fallsShort_right hread).refuses_group hread.solid)
    · have hstick := ihl h.left hleft hl hspace
      exact .inl (hstick.fallsShort.refuses_group hstick.solid)

/-- The text of an expression with a point in an external spells nothing. -/
theorem ofText_spelling_error (h : e.WellNamed) (hdots : ¬ ∀ n ∈ e.externals, '.' ∉ n.toList) :
    ∃ attempts, Term.ofText e.spelling = .error attempts := by
  have hstick := sticks_term h hdots (Nat.le_refl _) .nil
  rw [List.append_nil] at hstick
  obtain ⟨attempts, hrun⟩ := hstick.fallsShort.refuses_expression hstick.solid .start Attempts.none
  refine ⟨attempts, ?_⟩
  simp only [Term.ofText, Scanner.answer, Cursor.ofString, spelling, String.toList_ofList, hrun]
  rfl

/-! ## Reading the text back -/

/-- The text of a folded expression is read as the expression, if it is legible, and is refused for
its syntax otherwise. -/
theorem ofText_render {names : Names} (h : e.WellNamed) (hfold : e.fold = .ok e)
    (hnames : e.ResolvedBy names) :
    (e.Legible → Expr.ofText names e.render = .ok e) ∧
      (¬ e.Legible → ∃ cause, Expr.ofText names e.render = .error cause ∧
        cause.isReference = false) := by
  rw [render_eq, Expr.ofText]
  by_cases hdots : ∀ n ∈ e.externals, '.' ∉ n.toList
  · have hread : Term.ofText e.spelling = .ok e.term := (closed_term h hdots).1.ofText_text tight
    have hresolve := resolve_term hfold hnames
    simp only [hread, hresolve]
    constructor
    · intro hlegible
      exact if_neg fun hmin => hlegible.bounded _ hmin rfl
    · intro hlegible
      refine ⟨_, if_pos ?_, rfl⟩
      by_contra hmin
      exact hlegible ⟨fun v hv heq => hmin (heq ▸ hv), hdots⟩
  · obtain ⟨attempts, hrefused⟩ := ofText_spelling_error h hdots
    rw [hrefused]
    exact ⟨fun hlegible => absurd hlegible.undotted hdots, fun _ => ⟨_, rfl, rfl⟩⟩

end Expr

end RecordLayout
