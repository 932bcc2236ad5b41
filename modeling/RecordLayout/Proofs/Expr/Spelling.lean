import RecordLayout.Proofs.Expr.Grammar

/-!
# Terms and their texts

A term whose parentheses stand where the levels of its operators need them is what its text spells
(`ofText_text`): the operands and operators along the spine of its binary operations are read one
by one, and attaching them again builds the same spine.
-/

namespace RecordLayout

open Script Script.Scanner

namespace Term

/-! ## The spine of a term -/

/-- The leftmost operand of the binary operations that stand open. -/
def first : Term → Term
  | .binary _ l _ => l.first
  | t => t

/-- The operators that stand open, each with the operand behind it. -/
def more : Term → List (BinaryOp × Term)
  | .binary op l r => l.more ++ (op, r.first) :: r.more
  | _ => []

/-- The operands between the operators that stand open. -/
def operands (t : Term) : List Term := t.first :: t.more.map Prod.snd

/-- The level of a binary operation that stands open. -/
def level? : Term → Option Nat
  | .binary op _ _ => some op.level
  | _ => none

theorem operands_binary (op : BinaryOp) (l r : Term) :
    (binary op l r).operands = l.operands ++ r.operands := by
  simp [operands, first, more]

theorem spine_of_level?_eq_none {t : Term} (h : t.level? = none) : t.first = t ∧ t.more = [] := by
  cases t <;> first | exact ⟨rfl, rfl⟩ | exact absurd h nofun

theorem operands_of_level?_eq_none {t : Term} (h : t.level? = none) : t.operands = [t] := by
  obtain ⟨hfirst, hmore⟩ := spine_of_level?_eq_none h
  rw [operands, hfirst, hmore, List.map_nil]

/-! ## Well-formed terms -/

/-- Numerals and names are made of the right characters, a sign has an operand that binds at least as
tightly, the left operand of a binary operation is not looser than its operator and the right one is
tighter. -/
def WellFormed : Term → Prop
  | .decimal text => text.toList ≠ [] ∧ ∀ c ∈ text.toList, c.isDigit = true
  | .hex mark digits =>
    (mark = "0x" ∨ mark = "0X") ∧ digits.toList ≠ [] ∧ ∀ c ∈ digits.toList, isHexDigit c = true
  | .counter => True
  | .external n => IsName n.toList
  | .name n => IsPath n
  | .plus t => t.WellFormed ∧ t.level? = none
  | .unary _ t => t.WellFormed ∧ t.level? = none
  | .binary op l r =>
    l.WellFormed ∧ r.WellFormed ∧ (∀ n ∈ l.level?, op.level ≤ n) ∧ ∀ n ∈ r.level?, op.level < n
  | .group t => t.WellFormed

/-- An operator of the spine is not looser than the outermost one. -/
theorem WellFormed.level_le {t : Term} (h : t.WellFormed) :
    ∀ next ∈ t.more, ∀ n ∈ t.level?, n ≤ next.1.level := by
  induction t with
  | binary op l r ihl ihr =>
    obtain ⟨hl, hr, hleft, hright⟩ := h
    rintro next hnext n ⟨⟩
    -- Behind an operand there are operators only if it is a binary operation itself.
    have below : ∀ u : Term, next ∈ u.more → ∃ n, n ∈ u.level? := by
      intro u hu
      cases hlevel : u.level? with
      | none => rw [(spine_of_level?_eq_none hlevel).2] at hu; cases hu
      | some n => exact ⟨n, rfl⟩
    rcases List.mem_append.mp hnext with hmem | hmem
    · obtain ⟨n, hn⟩ := below l hmem
      exact (hleft n hn).trans (ihl hl next hmem n hn)
    · rcases List.mem_cons.mp hmem with rfl | hmem
      · exact Nat.le_refl _
      · obtain ⟨n, hn⟩ := below r hmem
        exact (hright n hn).le.trans (ihr hr next hmem n hn)
  | _ => exact nofun

/-- An operator that binds no more tightly takes the whole term as its left operand. -/
theorem attach_of_le {op : BinaryOp} {t : Term} (h : ∀ n ∈ t.level?, op.level ≤ n) (operand : Term) :
    attach op operand t = .binary op t operand := by
  cases t with
  | binary outer l r =>
    have hle : op.level ≤ outer.level := h _ rfl
    simp only [attach, Nat.not_lt.mpr hle, if_false]
  | _ => rfl

/-- Tighter operators go into the right operand. -/
theorem chain_binary {op : BinaryOp} (l u : Term) {more : List (BinaryOp × Term)}
    (h : ∀ next ∈ more, op.level < next.1.level) :
    chain (.binary op l u) more = .binary op l (chain u more) := by
  induction more generalizing u with
  | nil => rfl
  | cons next more ih =>
    have hnext : attach next.1 next.2 (.binary op l u) = .binary op l (attach next.1 next.2 u) := by
      simp only [attach, h next List.mem_cons_self, if_true]
    simp only [chain, List.foldl_cons] at ih ⊢
    rw [hnext]
    exact ih _ fun other hother => h other (List.mem_cons_of_mem next hother)

/-- Attaching the operands of the spine builds the term again. -/
theorem WellFormed.chain_spine {t : Term} (h : t.WellFormed) : chain t.first t.more = t := by
  induction t with
  | binary op l r ihl ihr =>
    obtain ⟨hl, hr, hleft, hright⟩ := h
    have htighter : ∀ next ∈ r.more, op.level < next.1.level := by
      intro next hnext
      cases hlevel : r.level? with
      | none => rw [(spine_of_level?_eq_none hlevel).2] at hnext; cases hnext
      | some n => exact (hright n hlevel).trans_le (hr.level_le next hnext n hlevel)
    calc chain l.first (l.more ++ (op, r.first) :: r.more)
        = chain (attach op r.first (chain l.first l.more)) r.more := by
          simp only [chain, List.foldl_append, List.foldl_cons]
      _ = chain (.binary op l r.first) r.more := by rw [ihl hl, attach_of_le hleft]
      _ = .binary op l (chain r.first r.more) := chain_binary l r.first htighter
      _ = .binary op l r := by rw [ihr hr]
  | _ => rfl

/-! ## Texts -/

/-- How a term is written: the blanks behind a sign and inside parentheses, and the counter. -/
structure Style where
  pad : List Char
  blank : Blank pad
  mark : List Char
  isMark : mark = ['$'] ∨ mark = ['$', '$']

variable (style : Style)

/-- The text of a term, with a blank on both sides of an operator. -/
def text : Term → List Char
  | .decimal digits => digits.toList
  | .hex mark digits => mark.toList ++ digits.toList
  | .counter => style.mark
  | .external n => '$' :: n.toList
  | .name n => n.toList
  | .plus t => Sign.plus.symbol.toList ++ (style.pad ++ t.text)
  | .unary op t => (Sign.unary op).symbol.toList ++ (style.pad ++ t.text)
  | .binary op l r => l.text ++ ' ' :: (op.symbol.toList ++ ' ' :: r.text)
  | .group t => '(' :: (style.pad ++ (t.text ++ (style.pad ++ [')'])))

/-- The text of operators, each with the operand behind it. -/
def linksText (more : List (BinaryOp × Term)) : List Char :=
  more.flatMap fun next => ' ' :: (next.1.symbol.toList ++ ' ' :: next.2.text style)

/-- The text of a term is that of its first operand and of the links behind it. -/
theorem text_spine (t : Term) :
    t.text style = t.first.text style ++ linksText style t.more := by
  induction t with
  | binary op l r ihl ihr =>
    rw [text, ihl, ihr]
    simp [first, more, linksText]
  | _ => simp [first, more, linksText]

/-- The text of an operand is no longer than that of the term. -/
theorem length_text_le {t u : Term} (h : u ∈ t.operands) :
    (u.text style).length ≤ (t.text style).length := by
  induction t with
  | binary op l r ihl ihr =>
    rw [operands_binary, List.mem_append] at h
    simp only [text, List.length_append, List.length_cons]
    rcases h with h | h
    · have := ihl h
      omega
    · have := ihr h
      omega
  | _ =>
    rw [operands_of_level?_eq_none rfl, List.mem_singleton] at h
    rw [h]

/-! ## Reading a text back -/

/-- The operand is read from its text, whatever stands behind it. -/
def ReadsBack (t : Term) : Prop :=
  ∀ depth, (t.text style).length ≤ depth → ∀ rest, Bounded rest →
    ReadsOperand (expr depth) (t.text style ++ rest) t rest

variable {style}

/-- No gap begins with a term, as none begins with an operand. -/
theorem solid_text {t : Term} (h : ∀ u ∈ t.operands, u.ReadsBack style) {rest : List Char}
    (hrest : Bounded rest) : Solid (t.text style ++ rest) := by
  rw [text_spine, List.append_assoc]
  refine (h t.first List.mem_cons_self _ (Nat.le_refl _) _ ?_).solid
  cases t.more with
  | nil => exact hrest
  | cons next more => exact .cons (by decide) (by decide) (by decide)

/-- An operator and its operand. -/
def link (depth : Nat) : Scanner (BinaryOp × Term) := do
  let op ← operator
  gap
  let t ← operand (expr depth)
  pure (op, t)

/-- A link is an operator and an operand behind it. -/
theorem reads_link (op : BinaryOp) {u : Term} (hu : u.ReadsBack style) {depth : Nat}
    (hdepth : (u.text style).length ≤ depth) {rest : List Char} (hrest : Bounded rest) :
    Reads (link depth) (op.symbol.toList ++ ' ' :: (u.text style ++ rest)) (op, u) rest := by
  have hoperand := hu depth hdepth rest hrest
  have hgap := reads_gap blank_space hoperand.solid
  exact (reads_operator op _).bind
    (f := fun op => do gap; let t ← operand (expr depth); pure (op, t))
    (hgap.seq (hoperand.reads.bind_pure fun t => (op, t)))

/-- An expression is an operand with the operators behind it. -/
theorem reads_chain {depth : Nat} {t : Term} {more : List (BinaryOp × Term)}
    {input mid mid' rest : List Char} (ht : Reads (operand (expr depth)) input t mid)
    (hgap : Reads gap mid () mid') (hmore : Reads (manyApart (link depth)) mid' more rest) :
    Reads (expr (depth + 1)) input (chain t more) rest :=
  (ht.bind (f := fun t => do gap; let more ← manyApart (link depth); pure (chain t more))
    (hgap.seq (hmore.bind_pure fun more => chain t more))).named _

/-- The text of an expression ends where no operator follows. -/
structure Ends (blanks stop : List Char) : Prop where
  blank : Blank blanks
  solid : Solid stop
  unbound : ∀ c ∈ stop.head?, c ∉ operatorStarts
  bounded : Bounded (blanks ++ stop)

theorem Ends.refuses {blanks stop : List Char} (h : Ends blanks stop) (depth : Nat) :
    Refuses (link depth) stop :=
  (refuses_operator h.unbound).bind

/-- What stands behind an operand bounds it: the blank of a link, or the end. -/
theorem bounded_links (style : Style) {rest : List Char} (h : Bounded rest)
    (more : List (BinaryOp × Term)) : Bounded (linksText style more ++ rest) := by
  cases more with
  | nil => exact h
  | cons next more => exact .cons (by decide) (by decide) (by decide)

theorem linksText_cons (op : BinaryOp) (u : Term) (more : List (BinaryOp × Term))
    (rest : List Char) :
    linksText style ((op, u) :: more) ++ rest =
      [' '] ++ (op.symbol.toList ++ ' ' :: (u.text style ++ (linksText style more ++ rest))) := by
  simp [linksText]

/-- The links are read one by one up to the end. -/
theorem readsEach_links {more : List (BinaryOp × Term)} {depth : Nat}
    (h : ∀ next ∈ more, next.2.ReadsBack style ∧ (next.2.text style).length ≤ depth)
    {blanks stop : List Char} (hends : Ends blanks stop) :
    ReadsEach (do gap; link depth) (linksText style more ++ (blanks ++ stop)) more
      (blanks ++ stop) := by
  induction more with
  | nil => exact .nil ((reads_gap hends.blank hends.solid).bind_refuses (hends.refuses depth))
  | cons next more ih =>
    obtain ⟨op, u⟩ := next
    obtain ⟨⟨hu, hdepth⟩, hmore⟩ := List.forall_mem_cons.mp h
    have hlink := reads_link op hu hdepth (bounded_links style hends.bounded more)
    rw [linksText_cons]
    refine .cons ((reads_gap blank_space (solid_operator op _)).seq hlink) ?_ (ih hmore)
    simp only [List.length_append, List.length_cons]
    omega

/-- An expression is read up to the blanks behind it, or past them if it has no operator. -/
theorem reads_expr {t : Term} (ht : t.WellFormed) (h : ∀ u ∈ t.operands, u.ReadsBack style)
    {depth : Nat} (hdepth : (t.text style).length ≤ depth) {blanks stop : List Char}
    (hends : Ends blanks stop) :
    ∃ after, Blank after ∧
      Reads (expr (depth + 1)) (t.text style ++ (blanks ++ stop)) t (after ++ stop) := by
  have hback : ∀ u ∈ t.operands, u.ReadsBack style ∧ (u.text style).length ≤ depth :=
    fun u hu => ⟨h u hu, (length_text_le style hu).trans hdepth⟩
  obtain ⟨hfirst, hmore⟩ := List.forall_mem_cons.mp hback
  replace hmore : ∀ next ∈ t.more, next.2.ReadsBack style ∧ (next.2.text style).length ≤ depth :=
    fun next hnext => hmore next.2 (List.mem_map_of_mem hnext)
  have hread := hfirst.1 depth hfirst.2 _ (bounded_links style hends.bounded t.more)
  have hspine := ht.chain_spine
  rw [text_spine, List.append_assoc]
  match hlinks : t.more with
  | [] =>
    rw [hlinks] at hread hspine
    simp only [linksText, List.flatMap_nil, List.nil_append] at hread ⊢
    have hchain := reads_chain hread.reads (reads_gap hends.blank hends.solid)
      (hends.refuses depth).manyApart
    rw [hspine] at hchain
    exact ⟨[], blank_nil, hchain⟩
  | (op, u) :: more =>
    rw [hlinks] at hread hspine hmore
    obtain ⟨⟨hu, hfit⟩, hlater⟩ := List.forall_mem_cons.mp hmore
    have hlink := reads_link op hu hfit (bounded_links style hends.bounded more)
    have hgap := reads_gap blank_space (solid_operator op
      (u.text style ++ (linksText style more ++ (blanks ++ stop))))
    rw [linksText_cons] at hread ⊢
    have hchain := reads_chain hread.reads hgap
      (ReadsEach.manyApart hlink (readsEach_links hlater hends))
    rw [hspine] at hchain
    exact ⟨blanks, hends.blank, hchain⟩

/-- What stands behind a text in parentheses. -/
theorem ends_group (style : Style) (rest : List Char) : Ends style.pad (')' :: rest) where
  blank := style.blank
  solid := solid_symbol (by decide) (by decide)
  unbound := by rintro c ⟨⟩; decide
  bounded := by
    cases h : style.pad with
    | nil => exact .cons (by decide) (by decide) (by decide)
    | cons c pad =>
      have hc : Text.isSeparator c = true := style.blank c (h ▸ List.mem_cons_self)
      simp only [Text.isSeparator, Bool.or_eq_true, beq_iff_eq] at hc
      rcases hc with ((rfl | rfl) | rfl) | rfl <;>
        exact .cons (by decide) (by decide) (by decide)

theorem ends_nil : Ends [] [] where
  blank := blank_nil
  solid := solid_nil
  unbound := nofun
  bounded := .nil

/-- A sign before an operand that is read from its text. -/
theorem ReadsBack.sign {t : Term} (h : t.ReadsBack style) (s : Sign) {signed : Term}
    (hsigned : signed = s.before t)
    (htext : signed.text style = s.symbol.toList ++ (style.pad ++ t.text style)) :
    signed.ReadsBack style := by
  intro depth hdepth rest hrest
  rw [htext] at hdepth ⊢
  simp only [List.length_append] at hdepth
  rw [hsigned, List.append_assoc, List.append_assoc]
  exact .sign s style.blank (h depth (by omega) rest hrest)

/-- Every operand of a well-formed term is read from its text. A term in parentheses is a whole
expression, for which its own operands are read. -/
theorem WellFormed.readsBack {t : Term} (h : t.WellFormed) :
    ∀ u ∈ t.operands, u.ReadsBack style := by
  induction t with
  | binary op l r ihl ihr =>
    intro u hu
    rw [operands_binary, List.mem_append] at hu
    exact hu.elim (ihl h.1 u) (ihr h.2.1 u)
  | decimal digits =>
    rw [operands_of_level?_eq_none rfl, List.forall_mem_singleton]
    intro depth _ rest hrest
    obtain ⟨hne, hdigits⟩ := h
    rw [text]
    match hcs : digits.toList with
    | [] => exact absurd hcs hne
    | c :: more =>
      rw [hcs] at hdigits
      obtain ⟨hc, hmore⟩ := List.forall_mem_cons.mp hdigits
      have hread : Reads (primary (expr depth)) _ _ _ := reads_decimal hc hmore hrest
      rw [← hcs, String.ofList_toList, hcs] at hread
      exact .of_primary (.inl (isNamePart_of_isDigit hc)) hread
  | hex mark digits =>
    rw [operands_of_level?_eq_none rfl, List.forall_mem_singleton]
    intro depth _ rest hrest
    obtain ⟨hmark, hne, hdigits⟩ := h
    rw [text, List.append_assoc]
    match hcs : digits.toList with
    | [] => exact absurd hcs hne
    | c :: more =>
      rw [hcs] at hdigits
      obtain ⟨hc, hmore⟩ := List.forall_mem_cons.mp hdigits
      have hread : Reads (primary (expr depth)) _ _ _ := reads_hexNumber hmark hc hmore hrest
      rw [← hcs, String.ofList_toList, hcs] at hread
      rcases hmark with rfl | rfl <;> exact .of_primary (.inl (by decide)) hread
  | counter =>
    rw [operands_of_level?_eq_none rfl, List.forall_mem_singleton]
    intro depth _ rest hrest
    have hread : Reads (primary (expr depth)) _ _ _ := reads_counter style.isMark hrest
    rw [text]
    rcases style.isMark with hmark | hmark <;> rw [hmark] at hread ⊢ <;>
      exact .of_primary (.inr (.inl rfl)) hread
  | external n =>
    rw [operands_of_level?_eq_none rfl, List.forall_mem_singleton]
    intro depth _ rest hrest
    have hread : Reads (primary (expr depth)) _ _ _ := reads_external h hrest.namePart
    rw [String.ofList_toList] at hread
    exact .of_primary (.inr (.inl rfl)) hread
  | name n =>
    rw [operands_of_level?_eq_none rfl, List.forall_mem_singleton]
    intro depth _ rest hrest
    obtain ⟨first, more, rfl, hparts⟩ := h
    have hread : Reads (primary (expr depth)) _ _ _ := reads_fieldRef hparts hrest
    obtain ⟨c, later, hfirst, hc, -⟩ := hparts first List.mem_cons_self
    rw [text]
    rw [toList_parts, hfirst] at hread ⊢
    exact .of_primary (.inl (isNamePart_of_isNameStart hc)) hread
  | plus t ih =>
    -- What stands behind a sign has no operator at its root, so it is its own only operand.
    obtain ⟨ht, hlevel⟩ := h
    have ht := ih ht
    rw [operands_of_level?_eq_none hlevel, List.forall_mem_singleton] at ht
    exact List.forall_mem_singleton.mpr (ht.sign .plus rfl rfl)
  | unary op t ih =>
    obtain ⟨ht, hlevel⟩ := h
    have ht := ih ht
    rw [operands_of_level?_eq_none hlevel, List.forall_mem_singleton] at ht
    exact List.forall_mem_singleton.mpr (ht.sign (.unary op) rfl rfl)
  | group t ih =>
    rw [operands_of_level?_eq_none rfl, List.forall_mem_singleton]
    intro depth hdepth rest hrest
    have hends := ends_group style rest
    simp only [text, List.length_append, List.length_cons] at hdepth
    -- The parentheses are part of the text, so the depth that fits it leaves one for what is
    -- inside.
    obtain ⟨depth, rfl⟩ : ∃ n, depth = n + 1 := ⟨depth - 1, by omega⟩
    have hfit : (t.text style).length ≤ depth := by omega
    have ht : t.WellFormed := h
    obtain ⟨after, hafter, hread⟩ := reads_expr ht (ih ht) hfit hends
    have hgroup := reads_group style.blank hafter (solid_text (ih ht) hends.bounded) hread
    simp only [text, List.cons_append, List.append_assoc, List.nil_append]
    exact .of_primary (.inr (.inr rfl)) hgroup

/-- A well-formed term is the term that its text spells. -/
theorem WellFormed.ofText_text {t : Term} (h : t.WellFormed) (style : Style) :
    ofText (String.ofList (t.text style)) = .ok t := by
  have hback : ∀ u ∈ t.operands, u.ReadsBack style := h.readsBack
  obtain ⟨after, hafter, hread⟩ := reads_expr h hback (Nat.le_refl _) ends_nil
  have hsolid := solid_text hback .nil
  simp only [List.append_nil] at hread hsolid
  have hend := reads_gap hafter solid_nil
  rw [List.append_nil] at hend
  have hwhole : Reads expression (t.text style) t [] :=
    ((reads_gap blank_nil hsolid).seq (reads_get fun _ =>
      hread.bind (f := fun t => do gap; named .endOfInput atEnd; pure t)
        (hend.seq ((reads_atEnd.named .endOfInput).bind_pure fun _ => t)))).named _
  obtain ⟨place, attempts, hrun⟩ := hwhole .start Attempts.none
  simp only [ofText, answer, Cursor.ofString, String.toList_ofList, hrun]
  rfl

end Term

end RecordLayout
