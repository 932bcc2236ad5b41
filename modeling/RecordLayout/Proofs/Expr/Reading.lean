import RecordLayout.Expr.Resolve
import RecordLayout.Proofs.Expr.Spelling
import RecordLayout.Proofs.Script.Places

/-!
# Terms that are read

A term that is read from a text is well-formed (`Term.wellFormed_of_ofText`): its numerals and names
are those of the grammar, and its operators stand as their levels say. An expression is put together
from what those numerals and names stand for, so it has every property that folding keeps
(`Expr.ofText_closed`).
-/

namespace RecordLayout

open Script.Scanner (IsName IsPath isHexDigit)

namespace Term

/-! ## Attaching -/

/-- The operator of a term with one more operand is the new one or the one it had. -/
theorem level_attach {op : BinaryOp} {operand t : Term} {n : Nat}
    (h : n ∈ (attach op operand t).level?) : n = op.level ∨ n ∈ t.level? := by
  cases t with
  | binary outer l r =>
    unfold attach at h
    split at h
    · exact .inr h
    · cases h
      exact .inl rfl
  | decimal | hex | counter | external | name | plus | unary | group =>
    cases h
    exact .inl rfl

/-- Attaching an operator keeps the levels in order down the right edge. -/
theorem WellFormed.attach {op : BinaryOp} {operand t : Term} (ht : t.WellFormed)
    (h : operand.WellFormed) (hlevel : operand.level? = none) :
    (attach op operand t).WellFormed := by
  have hright : ∀ n ∈ operand.level?, op.level < n := by
    rw [hlevel]
    exact fun n hn => absurd hn (Option.not_mem_none n)
  induction t with
  | binary outer l r _ ihr =>
    obtain ⟨hl, hr, houter, hinner⟩ := ht
    unfold Term.attach
    split
    · rename_i hlt
      refine ⟨hl, ihr hr, houter, fun n hn => ?_⟩
      rcases level_attach hn with rfl | hn
      · exact hlt
      · exact hinner n hn
    · rename_i hle
      refine ⟨⟨hl, hr, houter, hinner⟩, h, ?_, hright⟩
      rintro n ⟨⟩
      exact Nat.le_of_not_lt hle
  | decimal | hex | counter | external | name | plus | unary | group =>
    exact ⟨ht, h, fun n hn => absurd hn (Option.not_mem_none n), hright⟩

theorem WellFormed.chain {first : Term} {more : List (BinaryOp × Term)} (hfirst : first.WellFormed)
    (hmore : ∀ link ∈ more, link.2.WellFormed ∧ link.2.level? = none) :
    (chain first more).WellFormed := by
  unfold Term.chain
  induction more generalizing first with
  | nil => exact hfirst
  | cons link more ih =>
    obtain ⟨⟨hlink, hlevel⟩, hmore⟩ := List.forall_mem_cons.mp hmore
    exact ih (hfirst.attach hlink hlevel) hmore

/-- The term is well-formed and no binary operation stands open in it. -/
def Closed (t : Term) : Prop := t.WellFormed ∧ t.level? = none

theorem Closed.signs {t : Term} (ht : t.Closed) (signs : List Sign) :
    (signs.foldr Sign.before t).Closed := by
  induction signs with
  | nil => exact ht
  | cons s signs ih =>
    cases s with
    | plus => exact ⟨ih, rfl⟩
    | unary op => exact ⟨ih, rfl⟩

end Term

/-! ## Scanning -/

namespace Script.Scanner

variable {origin : Cursor}

theorem stays_hexNumber : Stays origin Term.Closed hexNumber := by
  apply Stays.named
  apply Stays.bind (V := fun mark => mark = "0x" ∨ mark = "0X")
  · apply Stays.orElse
    · exact (stays_word _).bind_pure fun _ _ => .inl rfl
    · exact (stays_word _).bind_pure fun _ _ => .inr rfl
  · intro mark hmark
    apply stays_span1.bind
    intro digits hdigits
    rw [← String.toList_ofList (l := digits)] at hdigits
    exact stays_notNext.bind_pure fun _ _ => ⟨⟨hmark, hdigits⟩, rfl⟩

theorem stays_decimalNumber : Stays origin Term.Closed decimalNumber := by
  apply Stays.named
  apply stays_span1.bind
  intro digits hdigits
  rw [← String.toList_ofList (l := digits)] at hdigits
  exact stays_notNext.bind_pure fun _ _ => ⟨hdigits, rfl⟩

theorem stays_externalRef : Stays origin Term.Closed externalRef := by
  apply Stays.named
  apply (stays_word _).bind
  intro _ _
  exact stays_name.bind_pure fun _ hn => ⟨hn, rfl⟩

theorem stays_counter : Stays origin Term.Closed counter := by
  apply Stays.named
  apply ((stays_word _).orElse (stays_word _)).bind
  intro _ _
  exact stays_notNext.bind_pure fun _ _ => ⟨trivial, rfl⟩

theorem stays_fieldRef : Stays origin Term.Closed fieldRef := by
  apply Stays.named
  apply stays_name.bind
  intro first hfirst
  have hpart : Stays origin (fun n => IsName n.toList) (do word ['.']; name) :=
    (stays_word _).bind fun _ _ => stays_name
  exact hpart.many.bind_pure fun more hmore =>
    ⟨⟨first, more, rfl, List.forall_mem_cons.mpr ⟨hfirst, hmore⟩⟩, rfl⟩

variable {inner : Scanner Term} (h : Stays origin Term.WellFormed inner)
include h

/-- An operand without a sign is closed: a group is, whatever it holds. -/
theorem stays_primary : Stays origin Term.Closed (primary inner) := by
  apply stays_hexNumber.orElse
  apply stays_decimalNumber.orElse
  apply stays_externalRef.orElse
  apply stays_counter.orElse
  apply stays_fieldRef.orElse
  apply (stays_word _).bind
  intro _ _
  apply stays_gap.bind
  intro _ _
  apply h.bind
  intro t ht
  apply stays_gap.bind
  intro _ _
  exact (stays_word _).bind_pure fun _ _ => ⟨ht, rfl⟩

omit h in
/-- A scanner of a mark. -/
theorem stays_marked {α : Type} (production : Production) (mark : List Char) (x : α) :
    Stays origin (fun _ => True) (named production (do word mark; pure x)) := by
  apply Stays.named
  exact (stays_word mark).bind_pure fun _ _ => trivial

omit h in
theorem stays_sign : Stays origin (fun _ => True) sign := by
  apply (stays_marked _ _ _).orElse
  apply (stays_marked _ _ _).orElse
  exact stays_marked _ _ _

omit h in
theorem stays_operator : Stays origin (fun _ => True) operator := by
  unfold operator
  repeat' apply Stays.orElse
  all_goals exact stays_marked _ _ _

theorem stays_operand : Stays origin Term.Closed (operand inner) := by
  apply stays_sign.manyApart.bind
  intro signs _
  apply stays_gap.bind
  intro _ _
  exact (stays_primary h).bind_pure fun _ ht => ht.signs signs

omit h in
/-- The induction is on the depth of parentheses. -/
theorem stays_expr (depth : Nat) : Stays origin Term.WellFormed (expr depth) := by
  induction depth with
  | zero => exact stays_failure
  | succ depth ih =>
    apply Stays.named
    apply (stays_operand ih).bind
    intro first hfirst
    apply stays_gap.bind
    intro _ _
    have hlink : Stays origin (fun link : BinaryOp × Term => link.2.Closed)
        (Term.link depth) := by
      apply stays_operator.bind
      intro op _
      apply stays_gap.bind
      intro _ _
      exact (stays_operand ih).bind_pure fun _ ht => ht
    exact hlink.manyApart.bind_pure fun _ hmore => hfirst.1.chain hmore

omit h in
theorem stays_expression : Stays origin Term.WellFormed expression := by
  apply Stays.named
  apply stays_gap.bind
  intro _ _
  apply stays_get.bind
  intro c _
  apply (stays_expr _).bind
  intro t ht
  apply stays_gap.bind
  intro _ _
  exact (stays_atEnd.named _).bind_pure fun _ _ => ht

end Script.Scanner

/-- A term that was read is well-formed. -/
theorem Term.wellFormed_of_ofText {text : String} {t : Term} (h : ofText text = .ok t) :
    t.WellFormed := by
  unfold ofText at h
  cases hanswer : Script.Scanner.expression.answer (.ofString text) with
  | error attempts =>
    rw [hanswer] at h
    cases h
  | ok found =>
    rw [hanswer] at h
    cases h
    exact Script.Scanner.stays_expression.answer_ok hanswer

/-! ## Expressions -/

/-- A property of expressions that constants have and operators keep, folded where they can be. -/
structure Expr.Kept (P : Expr → Prop) : Prop where
  const : ∀ v, P (.const v)
  counter : P .counter
  unary : ∀ op e, P e → P (foldUnary op e)
  binary : ∀ op l r e, P l → P r → foldBinary op l r = some e → P e

namespace Expr

/-- Folding an operator with one operand keeps it or makes a constant. -/
theorem foldUnary_eq (op : UnaryOp) (e : Expr) :
    foldUnary op e = unary op e ∨ ∃ v, foldUnary op e = const v := by
  cases e with
  | const v => exact .inr ⟨_, rfl⟩
  | field | external | counter | unary | binary => exact .inl rfl

/-- Folding an operator with two operands keeps it or makes a constant. -/
theorem foldBinary_eq {op : BinaryOp} {l r e : Expr} (h : foldBinary op l r = some e) :
    e = binary op l r ∨ ∃ v, e = const v := by
  unfold foldBinary at h
  split at h
  · cases h
  · split at h
    · obtain ⟨v, -, rfl⟩ := Option.map_eq_some_iff.mp h
      exact .inr ⟨v, rfl⟩
    · cases h
      exact .inl rfl

/-- Folding brings nothing in that is collected from leaves other than constants. -/
theorem Kept.collected {α : Type} {f : Expr → List α} (hconst : ∀ v, f (.const v) = [])
    (hcounter : f .counter = []) (hunary : ∀ op e, f (.unary op e) = f e)
    (hbinary : ∀ op l r, f (.binary op l r) = f l ++ f r) (Q : α → Prop) :
    Kept fun e => ∀ x ∈ f e, Q x where
  const v := by simp [hconst v]
  counter := by simp [hcounter]
  unary op e he := by
    rcases foldUnary_eq op e with h | ⟨v, h⟩
    · rwa [h, hunary]
    · simp [h, hconst v]
  binary op l r e hl hr h := by
    rcases foldBinary_eq h with rfl | ⟨v, rfl⟩
    · rw [hbinary]
      exact fun x hx => (List.mem_append.mp hx).elim (hl x) (hr x)
    · simp [hconst v]

end Expr

section

variable {names : Names} {P : Expr → Prop} (hP : Expr.Kept P)
  (hfield : ∀ n e, IsPath n → names.field n = .ok e → P e)
  (hexternal : ∀ n e, IsName n.toList → names.external n = .ok e → P e)
include hP hfield hexternal

omit hfield hexternal in
theorem Expr.Kept.numeral {base : Nat} {digits : String} {cause : Script.Cause} {e : Expr}
    (h : (match Term.numeral base digits with
      | some e => Except.ok e
      | none => .error cause) = .ok e) : P e := by
  unfold Term.numeral at h
  dsimp only at h
  split at h
  · rename_i hnumeral
    split at hnumeral
    · cases hnumeral
      cases h
      exact hP.const _
    · cases hnumeral
  · cases h

/-- What holds of constants and of what names stand for holds of every expression that is read. -/
theorem Term.resolve_closed {t : Term} (ht : t.WellFormed) {e : Expr}
    (h : t.resolve names = .ok e) : P e := by
  induction t generalizing e with
  | decimal text => exact hP.numeral h
  | hex mark digits => exact hP.numeral h
  | counter =>
    cases h
    exact hP.counter
  | external n => exact hexternal n e ht h
  | name n => exact hfield n e ht h
  | plus t ih => exact ih ht.1 h
  | group t ih => exact ih ht h
  | unary op t ih =>
    obtain ⟨operand, hoperand, h⟩ := except_bind_eq_ok.mp h
    cases h
    exact hP.unary op operand (ih ht.1 hoperand)
  | binary op l r ihl ihr =>
    obtain ⟨left, hleft, h⟩ := except_bind_eq_ok.mp h
    obtain ⟨right, hright, h⟩ := except_bind_eq_ok.mp h
    split at h
    · rename_i hfold
      cases h
      exact hP.binary op left right _ (ihl ht.1 hleft) (ihr ht.2.1 hright) hfold
    · cases h

/-- An expression that is read has every property that folding keeps, if the names in it stand for
expressions that have it. -/
theorem Expr.ofText_closed {text : String} {e : Expr} (h : Expr.ofText names text = .ok e) :
    P e := by
  unfold Expr.ofText at h
  cases hterm : Term.ofText text with
  | ok t =>
    rw [hterm] at h
    exact Term.resolve_closed hP hfield hexternal (Term.wellFormed_of_ofText hterm) h
  | error attempts =>
    rw [hterm] at h
    cases h

end

end RecordLayout
