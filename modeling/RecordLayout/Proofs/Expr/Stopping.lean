import RecordLayout.Proofs.Expr.Spelling

/-!
# Expressions that are not read to their end

An external whose name has a point in it is read up to the point. No operator begins with a point, so
the expression around it stops there, or in front of an operator with such an operand behind it. Then
neither the parenthesis that would close it nor the end of the text is where it is looked for, and the
expression is refused.
-/

namespace RecordLayout.Script.Scanner

variable {input rest : List Char} {inner : Scanner Term} {t : Term} {depth : Nat}

/-! ## Stopping -/

/-- Nothing is read, or what is read leaves something that does not close an expression. -/
def FallsShort (s : Scanner Term) (input : List Char) : Prop :=
  Refuses s input ∨ ∃ t c more, c ≠ ')' ∧ Solid (c :: more) ∧ Reads s input t (c :: more)

/-- There is no operand in front, or one up to a point. -/
def Sticks (inner : Scanner Term) (input : List Char) : Prop :=
  RefusesOperand inner input ∨ ∃ t more, ReadsOperand inner input t ('.' :: more)

theorem solid_point (more : List Char) : Solid ('.' :: more) := solid_symbol (by decide) (by decide)

theorem Sticks.solid (h : Sticks inner input) : Solid input := by
  rcases h with h | ⟨t, more, h⟩
  · exact h.solid
  · exact h.solid

theorem Sticks.sign (h : Sticks inner input) (s : Sign) {blanks : List Char}
    (hblanks : Blank blanks) : Sticks inner (s.symbol.toList ++ (blanks ++ input)) := by
  rcases h with h | ⟨t, more, h⟩
  · exact .inl (h.sign s hblanks)
  · exact .inr ⟨s.before t, more, h.sign s hblanks⟩

/-- An external is read up to a point in its name. -/
theorem sticks_external {first : List Char} (hfirst : IsName first) (later : List Char) :
    Sticks inner ('$' :: (first ++ '.' :: later)) :=
  .inr ⟨_, later, .of_primary (.inr (.inl rfl)) (reads_external hfirst (by rintro c ⟨⟩; decide))⟩

/-! ## Expressions -/

/-- No operator begins with a point. -/
theorem refuses_link_point (depth : Nat) (more : List Char) :
    Refuses (Term.link depth) ('.' :: more) :=
  (refuses_operator (by rintro c ⟨⟩; decide)).bind

theorem reads_gap_point (more : List Char) : Reads gap ('.' :: more) () ('.' :: more) :=
  reads_gap blank_nil (solid_point more)

/-- The first operand of an expression sticks. -/
theorem Sticks.fallsShort (h : Sticks (expr depth) input) : FallsShort (expr (depth + 1)) input := by
  rcases h with h | ⟨t, more, h⟩
  · exact .inl (h.refuses.bind.named _)
  · have hchain := Term.reads_chain h.reads (reads_gap_point more)
      (refuses_link_point depth more).manyApart
    exact .inr ⟨_, '.', more, by decide, solid_point more, hchain⟩

theorem symbol_eq_cons (op : BinaryOp) : ∃ c more, op.symbol.toList = c :: more ∧ c ≠ ')' := by
  cases op <;> exact ⟨_, _, rfl, by decide⟩

/-- The second operand of an expression sticks: the expression stops there, or in front of the
operator if there is none. -/
theorem Sticks.fallsShort_right {op : BinaryOp} {right : List Char} (h : Sticks (expr depth) right)
    (hleft : ReadsOperand (expr depth) input t ([' '] ++ (op.symbol.toList ++ ' ' :: right))) :
    FallsShort (expr (depth + 1)) input := by
  have hoperator := solid_operator op right
  have hgap := reads_gap blank_space hoperator
  have hbefore := reads_gap blank_space h.solid
  rcases h with h | ⟨u, more, h⟩
  · have hlink : Refuses (Term.link depth) (op.symbol.toList ++ ' ' :: right) :=
      (reads_operator op _).bind_refuses (hbefore.bind_refuses h.refuses.bind)
    have hchain := Term.reads_chain hleft.reads hgap hlink.manyApart
    obtain ⟨c, more, hsymbol, hc⟩ := symbol_eq_cons op
    rw [hsymbol] at hchain hoperator
    exact .inr ⟨t, c, _, hc, hoperator, hchain⟩
  · have hlink : Reads (Term.link depth) (op.symbol.toList ++ ' ' :: right) (op, u) ('.' :: more) :=
      (reads_operator op _).bind
        (f := fun op => do gap; let t ← operand (expr depth); pure (op, t))
        (hbefore.seq (h.reads.bind_pure fun u => (op, u)))
    have hlast := (reads_gap_point more).bind_refuses (f := fun _ => Term.link depth)
      (refuses_link_point depth more)
    have hchain := Term.reads_chain hleft.reads hgap (ReadsEach.manyApart hlink (.nil hlast))
    exact .inr ⟨_, '.', more, by decide, solid_point more, hchain⟩

/-- In parentheses, an expression that falls short is no operand. -/
theorem FallsShort.refuses_group (h : FallsShort inner input) (hinput : Solid input) :
    RefusesOperand inner ('(' :: input) := by
  obtain ⟨hhex, hdecimal, hexternal, hcounter, hname⟩ := refuses_others_group input
  have hbody : Refuses (group inner) ('(' :: input) := by
    refine (reads_symbol '(' input).bind_refuses
      ((reads_gap blank_nil hinput).bind_refuses ?_)
    rcases h with h | ⟨t, c, more, hc, hsolid, h⟩
    · exact h.bind
    · have hclose : Refuses (word [')']) (c :: more) := refuses_word ')' [] (by rintro d ⟨⟩; exact hc)
      exact h.bind_refuses ((reads_gap blank_nil hsolid).bind_refuses hclose.bind)
  exact ⟨[], _, .of_start (.inr (.inr rfl)) input, hhex.orElse (hdecimal.orElse
    (hexternal.orElse (hcounter.orElse (hname.orElse hbody))))⟩

/-- As a whole, an expression that falls short is refused. -/
theorem FallsShort.refuses_expression (h : FallsShort (expr (input.length + 1)) input)
    (hinput : Solid input) : Refuses expression input := by
  refine ((reads_gap blank_nil hinput).bind_refuses (refuses_get fun _ => ?_)).named _
  rcases h with h | ⟨t, c, more, -, hsolid, h⟩
  · exact h.bind
  · have hend := ((refuses_atEnd c more).named .endOfInput).bind (f := fun _ => pure t)
    exact h.bind_refuses ((reads_gap blank_nil hsolid).bind_refuses hend)

end RecordLayout.Script.Scanner
