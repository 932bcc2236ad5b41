import RecordLayout.Proofs.Expr.Spelling
import RecordLayout.Proofs.Flat.Tokens

/-!
# Climbing

An expression is matched as a row of signs, operators and operands, and a term is made of the row by
climbing: an operator takes as its right operand whatever follows that binds more tightly. On the way
it is relied upon that an operand or a sign stands where an operand is due, and an operator behind
every operand. Rows that the grammar matches are like that, and climbing them gives the terms that
attaching their operands one after the other gives.
-/

namespace RecordLayout

/-- How tightly an operator binds what is in front of it. -/
def BinaryOp.power (op : BinaryOp) : Nat := 10 * (op.level + 1)

/-- How tightly a sign binds. -/
def Sign.power : Nat := 70

/-- A part of an expression. -/
inductive RowPart where
  | sign (s : Sign)
  | operator (op : BinaryOp)
  | operand (t : Term)

namespace RowPart

mutual

/-- A term, which binds more tightly than a power, and what is behind it. -/
def climb : (fuel power : Nat) → List RowPart → Halting (Term × List RowPart)
  | fuel + 1, power, sign s :: rest => do
    let (t, rest) ← climb fuel (Sign.power - 1) rest
    grow fuel power (s.before t) rest
  | fuel + 1, power, operand t :: rest => grow fuel power t rest
  | _, _, _ => .error .misplaced

/-- The term with the operators behind it that bind more tightly than a power. -/
def grow : (fuel power : Nat) → Term → List RowPart → Halting (Term × List RowPart)
  | _ + 1, _, t, [] => .ok (t, [])
  | fuel + 1, power, t, operator op :: rest =>
    if power < op.power then do
      let (r, rest) ← climb fuel op.power rest
      grow fuel power (.binary op t r) rest
    else .ok (t, operator op :: rest)
  | _ + 1, power, t, sign s :: rest =>
    if power < Sign.power then .error .misplaced else .ok (t, sign s :: rest)
  | _, _, _, _ => .error .misplaced

end

/-- The term of a row. Every step takes a part of it. -/
def term (row : List RowPart) : Halting Term := do
  let (t, _) ← climb (row.length + 1) 0 row
  pure t

end RowPart

/-! ## Rows of operands -/

/-- An operand with the signs before it. -/
structure Signed where
  signs : List Sign
  /-- No operator of it stands open. -/
  term : { t : Term // t.level? = none }

namespace Signed

/-- The operand as one term. -/
def whole (o : Signed) : Term := o.signs.foldr Sign.before o.term

/-- The operand part by part. -/
def pieces (o : Signed) : List RowPart := o.signs.map .sign ++ [.operand o.term]

theorem level?_whole (o : Signed) : o.whole.level? = none := by
  obtain ⟨signs, t, ht⟩ := o
  cases signs with
  | nil => exact ht
  | cons s signs => cases s <;> rfl

/-- Every operator may be attached to an operand. -/
theorem looser_whole (o : Signed) (more : List (BinaryOp × Signed)) :
    ∀ n ∈ o.whole.level?, ∀ next ∈ more.head?, next.1.level ≤ n := by
  rw [level?_whole]
  exact nofun

/-- Operators with an operand behind each, part by part. -/
def row (more : List (BinaryOp × Signed)) : List RowPart :=
  more.flatMap fun next => .operator next.1 :: next.2.pieces

/-- Operators with an operand behind each, as terms. -/
def links (more : List (BinaryOp × Signed)) : List (BinaryOp × Term) :=
  more.map fun next => (next.1, next.2.whole)

theorem row_cons (next : BinaryOp × Signed) (more : List (BinaryOp × Signed)) :
    row (next :: more) = .operator next.1 :: (next.2.pieces ++ row more) := rfl

theorem power_le (op : BinaryOp) : op.power ≤ Sign.power - 1 := by
  cases op <;> decide

/-- Behind an operand with a sign nothing binds as tightly as the sign. -/
theorem grow_sign {fuel : Nat} (hfuel : 0 < fuel) (t : Term) (more : List (BinaryOp × Signed)) :
    RowPart.grow fuel (Sign.power - 1) t (row more) = .ok (t, row more) := by
  obtain ⟨fuel, rfl⟩ := Nat.exists_eq_add_of_lt hfuel
  cases more with
  | nil => simp only [row, List.flatMap_nil, RowPart.grow]
  | cons next more =>
    rw [row_cons, Nat.zero_add, RowPart.grow, if_neg (Nat.not_lt.mpr (power_le next.1))]

/-- An operand is taken with its signs. -/
theorem climb_pieces (o : Signed) (more : List (BinaryOp × Signed)) (power : Nat) {fuel : Nat}
    (hfuel : (o.pieces ++ row more).length < fuel) :
    ∃ left, (row more).length < left ∧
      RowPart.climb fuel power (o.pieces ++ row more) = RowPart.grow left power o.whole (row more) := by
  obtain ⟨signs, t⟩ := o
  obtain ⟨fuel, rfl⟩ : ∃ n, fuel = n + 1 := ⟨fuel - 1, by omega⟩
  simp only [pieces, whole, List.length_append, List.length_map, List.length_cons,
    List.length_nil] at hfuel ⊢
  induction signs generalizing fuel power with
  | nil =>
    simp only [List.length_nil] at hfuel
    exact ⟨fuel, by omega, rfl⟩
  | cons s signs ih =>
    simp only [List.length_cons] at hfuel
    obtain ⟨fuel, rfl⟩ : ∃ n, fuel = n + 1 := ⟨fuel - 1, by omega⟩
    obtain ⟨left, hleft, hinner⟩ : ∃ left, (row more).length < left ∧
        RowPart.climb (fuel + 1) (Sign.power - 1)
            (signs.map .sign ++ [.operand t.1] ++ row more) =
          RowPart.grow left (Sign.power - 1) (signs.foldr Sign.before t.1) (row more) :=
      ih (Sign.power - 1) fuel (by omega)
    refine ⟨fuel + 1, by omega, ?_⟩
    rw [List.map_cons, List.cons_append, List.cons_append, RowPart.climb, hinner,
      grow_sign (by omega), ok_bind]
    rfl

/-- Operators come in two parts: those of the first bind more tightly than a power, and the second
begins with one that does not. -/
structure Parts (power : Nat) (more tight loose : List (BinaryOp × Signed)) : Prop where
  append : tight ++ loose = more
  tighter : ∀ next ∈ tight, power < next.1.power
  stops : ∀ next ∈ loose.head?, next.1.power ≤ power

namespace Parts

variable {power : Nat} {op : BinaryOp} {o : Signed}
  {more inner outer tight loose : List (BinaryOp × Signed)}

/-- What an operator takes as its right operand, and what follows that. -/
theorem cons (hinner : Parts op.power more inner outer) (h : Parts power outer tight loose)
    (hpower : power < op.power) :
    Parts power ((op, o) :: more) ((op, o) :: (inner ++ tight)) loose where
  append := by
    rw [List.cons_append, List.append_assoc, h.append, hinner.append]
  tighter := by
    intro next hnext
    rcases List.mem_cons.mp hnext with rfl | hnext
    · exact hpower
    · rcases List.mem_append.mp hnext with hnext | hnext
      · exact hpower.trans (hinner.tighter next hnext)
      · exact h.tighter next hnext
  stops := h.stops

theorem length_le (h : Parts power more tight loose) : loose.length ≤ more.length := by
  rw [← h.append, List.length_append]
  exact Nat.le_add_left _ _

theorem length_row_le (h : Parts power more tight loose) :
    (row loose).length ≤ (row more).length := by
  rw [← h.append, row, row, List.flatMap_append, List.length_append]
  exact Nat.le_add_left _ _

/-- The right operand of an operator takes the operators that bind more tightly. -/
theorem chain_eq (h : Parts op.power more inner outer) {t : Term}
    (ht : ∀ n ∈ t.level?, op.level ≤ n) (tight : List (BinaryOp × Signed)) :
    t.chain (links ((op, o) :: (inner ++ tight))) =
      Term.chain (.binary op t (o.whole.chain (links inner))) (links tight) := by
  have htighter : ∀ next ∈ links inner, op.level < next.1.level := by
    intro next hnext
    obtain ⟨link, hlink, rfl⟩ := List.mem_map.mp hnext
    have hpower := h.tighter link hlink
    simp only [BinaryOp.power] at hpower
    dsimp only
    omega
  calc t.chain (links ((op, o) :: (inner ++ tight)))
      = Term.chain (Term.chain (.attach op o.whole t) (links inner)) (links tight) := by
        simp only [Term.chain, links, List.map_cons, List.map_append, List.foldl_cons,
          List.foldl_append]
    _ = Term.chain (Term.chain (.binary op t o.whole) (links inner)) (links tight) := by
        rw [Term.attach_of_le ht]
    _ = Term.chain (.binary op t (o.whole.chain (links inner))) (links tight) := by
        rw [Term.chain_binary t o.whole htighter]

end Parts

/-- Growing a term attaches the operators that bind more tightly, one after the other. -/
theorem grow_row (more : List (BinaryOp × Signed)) (power : Nat) {fuel : Nat} {t : Term}
    (hfuel : (row more).length < fuel)
    (ht : ∀ n ∈ t.level?, ∀ next ∈ more.head?, next.1.level ≤ n) :
    ∃ tight loose, Parts power more tight loose ∧
      RowPart.grow fuel power t (row more) = .ok (t.chain (links tight), row loose) := by
  -- The right operand of an operator is followed by a shorter row, which is not a tail of this one.
  induction hsize : more.length using Nat.strong_induction_on
    generalizing more power fuel t with
  | _ n ih =>
  subst hsize
  obtain ⟨fuel, rfl⟩ : ∃ n, fuel = n + 1 := ⟨fuel - 1, by omega⟩
  cases more with
  | nil =>
    refine ⟨[], [], ⟨rfl, fun _ h => absurd h List.not_mem_nil, nofun⟩, ?_⟩
    simp only [row, List.flatMap_nil, RowPart.grow]
    rfl
  | cons next more =>
    obtain ⟨op, o⟩ := next
    rw [row_cons, List.length_cons] at hfuel
    rw [row_cons, RowPart.grow]
    split
    · rename_i hpower
      obtain ⟨left, hleft, hclimb⟩ := climb_pieces o more op.power (Nat.lt_of_succ_lt_succ hfuel)
      obtain ⟨inner, outer, hinner, hright⟩ :=
        ih more.length (Nat.lt_succ_self _) more op.power hleft (looser_whole o more) rfl
      have houter : ∀ n ∈ (Term.binary op t (o.whole.chain (links inner))).level?,
          ∀ next ∈ outer.head?, next.1.level ≤ n := by
        rintro n ⟨⟩ next hnext
        have hpower := hinner.stops next hnext
        simp only [BinaryOp.power] at hpower
        omega
      have hrow : (row outer).length < fuel := by
        have hshorter := hinner.length_row_le
        simp only [List.length_append] at hfuel
        omega
      obtain ⟨tight, loose, hparts, hgrow⟩ :=
        ih outer.length (Nat.lt_succ_of_le hinner.length_le) outer power hrow houter rfl
      refine ⟨(op, o) :: (inner ++ tight), loose, hinner.cons hparts hpower, ?_⟩
      rw [hclimb, hright, ok_bind]
      dsimp only
      rw [hgrow, hinner.chain_eq fun n hn => ht n hn _ rfl]
    · rename_i hpower
      refine ⟨[], (op, o) :: more, ⟨rfl, fun _ h => absurd h List.not_mem_nil, ?_⟩, rfl⟩
      rintro next ⟨⟩
      exact Nat.not_lt.mp hpower

/-- Climbing a row of operands gives the term of attaching them. -/
theorem term_row (o : Signed) (more : List (BinaryOp × Signed)) :
    RowPart.term (o.pieces ++ row more) = .ok (o.whole.chain (links more)) := by
  obtain ⟨left, hleft, hclimb⟩ := climb_pieces o more 0 (Nat.lt_succ_self _)
  obtain ⟨tight, loose, hparts, hgrow⟩ := grow_row more 0 hleft (looser_whole o more)
  have hloose : loose = [] := by
    cases loose with
    | nil => rfl
    | cons next loose =>
      have hstops := hparts.stops next rfl
      simp only [BinaryOp.power] at hstops
      omega
  have htight : tight = more := by
    rw [← hparts.append, hloose, List.append_nil]
  rw [RowPart.term, hclimb, hgrow, ok_bind, htight]
  rfl

end Signed

/-! ## Rows of an expression -/

namespace Script.Scanner

/-- An operand without a sign; `inner` reads what stands in parentheses. -/
def rawPrimary (inner : Scanner (Halting Term)) : Scanner (Halting Term) :=
  Except.ok <$> hexNumber <|> Except.ok <$> decimalNumber <|> Except.ok <$> externalRef <|>
  Except.ok <$> counter <|> Except.ok <$> fieldRef <|>
    (do
      word ['(']
      gap
      let t ← inner
      gap
      word [')']
      pure (Term.group <$> t))

/-- An operand with the signs before it. -/
def rawOperand (inner : Scanner (Halting Term)) : Scanner (Halting (List RowPart)) := do
  let signs ← manyApart sign
  gap
  let t ← rawPrimary inner
  pure ((signs.map RowPart.sign ++ [.operand ·]) <$> t)

/-- An expression in which at most `depth` parentheses are open at once. -/
def rawExpr : (depth : Nat) → Scanner (Halting Term)
  | 0 => failure
  | depth + 1 =>
    named .expr do
      let first ← rawOperand (rawExpr depth)
      gap
      let more ← manyApart do
        let op ← operator
        gap
        let t ← rawOperand (rawExpr depth)
        pure ((RowPart.operator op :: ·) <$> t)
      pure do
        let first ← first
        let more ← more.mapM id
        RowPart.term (first ++ more.flatten)

/-- A whole expression. -/
def rawExpression : Scanner (Halting Term) :=
  named .expression do
    gap
    let c ← get
    let t ← rawExpr (c.rest.length + 1)
    gap
    named .endOfInput atEnd
    pure t

end Script.Scanner

/-- The term that a text spells, made by climbing. -/
def Term.climbText (text : String) : Except Script.Attempts (Halting Term) :=
  (Script.Scanner.rawExpression.answer (.ofString text)).map Prod.fst

namespace Script.Scanner

/-! ## Side by side -/

/-- The operand is read, and no operator of it stands open. -/
def IsWhole (t : Term) (raw : Halting Term) : Prop := raw = .ok t ∧ t.level? = none

/-- An operand with nothing in it is read as it is. -/
theorem follows_leaf {s : Scanner Term} (h : Follows (fun t u => u = t ∧ t.level? = none) s s) :
    Follows IsWhole s (Except.ok <$> s) := by
  rw [← bind_pure_comp]
  nth_rewrite 1 [← bind_pure s]
  apply h.bind_pure
  rintro t _ ⟨rfl, ht⟩
  exact ⟨rfl, ht⟩

/-- A hexadecimal numeral is a piece of its own. -/
theorem follows_hexNumber : Follows IsWhole hexNumber (Except.ok <$> hexNumber) := by
  apply follows_leaf
  apply Follows.named
  apply follows_bind
  intro mark
  apply follows_bind
  intro digits
  apply follows_bind
  intro _
  exact follows_pure ⟨rfl, rfl⟩

theorem follows_decimalNumber : Follows IsWhole decimalNumber (Except.ok <$> decimalNumber) := by
  apply follows_leaf
  apply Follows.named
  apply follows_bind
  intro digits
  apply follows_bind
  intro _
  exact follows_pure ⟨rfl, rfl⟩

theorem follows_externalRef : Follows IsWhole externalRef (Except.ok <$> externalRef) := by
  apply follows_leaf
  apply Follows.named
  apply follows_bind
  intro _
  apply follows_bind
  intro n
  exact follows_pure ⟨rfl, rfl⟩

theorem follows_counter : Follows IsWhole counter (Except.ok <$> counter) := by
  apply follows_leaf
  apply Follows.named
  apply follows_bind
  intro _
  apply follows_bind
  intro _
  exact follows_pure ⟨rfl, rfl⟩

theorem follows_fieldRef : Follows IsWhole fieldRef (Except.ok <$> fieldRef) := by
  apply follows_leaf
  apply Follows.named
  apply follows_bind
  intro first
  apply follows_bind
  intro more
  exact follows_pure ⟨rfl, rfl⟩

/-- The two expressions are read alike. -/
def Climbed (t : Term) (raw : Halting Term) : Prop := raw = .ok t

variable {inner : Scanner Term} {rawInner : Scanner (Halting Term)}

/-- A group in pieces is one piece. -/
theorem follows_primary (h : Follows Climbed inner rawInner) :
    Follows IsWhole (primary inner) (rawPrimary rawInner) := by
  apply follows_hexNumber.orElse
  apply follows_decimalNumber.orElse
  apply follows_externalRef.orElse
  apply follows_counter.orElse
  apply follows_fieldRef.orElse
  apply follows_bind
  intro _
  apply follows_bind
  intro _
  apply h.bind
  rintro t _ rfl
  apply follows_bind
  intro _
  apply follows_bind
  intro _
  exact follows_pure ⟨rfl, rfl⟩

/-- The operand is read part by part. -/
def InPieces (t : Term) (raw : Halting (List RowPart)) : Prop :=
  ∃ o : Signed, o.whole = t ∧ raw = .ok o.pieces

/-- The signs of an operand come as pieces before it. -/
theorem follows_operand (h : Follows Climbed inner rawInner) :
    Follows InPieces (operand inner) (rawOperand rawInner) := by
  apply follows_bind
  intro signs
  apply follows_bind
  intro _
  apply (follows_primary h).bind_pure
  rintro t _ ⟨rfl, ht⟩
  exact ⟨⟨signs, t, ht⟩, rfl, rfl⟩

/-- The operator with its operand is read part by part. -/
def LinkInPieces (link : BinaryOp × Term) (raw : Halting (List RowPart)) : Prop :=
  ∃ o : Signed, (link.1, o.whole) = link ∧ raw = .ok (.operator link.1 :: o.pieces)

/-- Operators with their operands, read part by part. -/
theorem exists_links {found : List (BinaryOp × Term)} {raws : List (Halting (List RowPart))}
    (h : List.Forall₂ LinkInPieces found raws) :
    ∃ more rows, Signed.links more = found ∧ raws.mapM id = .ok rows ∧
      rows.flatten = Signed.row more := by
  induction h with
  | nil => exact ⟨[], [], rfl, rfl, rfl⟩
  | @cons link raw found raws hlink _ ih =>
    obtain ⟨o, hlink, rfl⟩ := hlink
    obtain ⟨more, rows, rfl, hraws, hrows⟩ := ih
    refine ⟨(link.1, o) :: more, (.operator link.1 :: o.pieces) :: rows, ?_, ?_, ?_⟩
    · rw [Signed.links, List.map_cons, hlink]
      rfl
    · rw [List.mapM_cons, hraws]
      rfl
    · rw [List.flatten_cons, hrows, Signed.row_cons, List.cons_append]

/-- The induction is on the depth of parentheses. -/
theorem follows_rawExpr (depth : Nat) : Follows Climbed (expr depth) (rawExpr depth) := by
  induction depth with
  | zero => exact fun c a => .refused a
  | succ depth ih =>
    apply Follows.named
    apply (follows_operand ih).bind
    rintro first _ ⟨o, rfl, rfl⟩
    apply follows_bind
    intro _
    have hlink : Follows LinkInPieces
        (do
          let op ← operator
          gap
          let t ← operand (expr depth)
          pure (op, t))
        (do
          let op ← operator
          gap
          let t ← rawOperand (rawExpr depth)
          pure ((RowPart.operator op :: ·) <$> t)) := by
      apply follows_bind
      intro op
      apply follows_bind
      intro _
      apply (follows_operand ih).bind_pure
      rintro t _ ⟨o, rfl, rfl⟩
      exact ⟨o, rfl, rfl⟩
    apply hlink.manyApart.bind_pure
    intro found raws hfound
    obtain ⟨more, rows, rfl, hraws, hrows⟩ := exists_links hfound
    rw [Climbed, ok_bind, hraws, ok_bind, hrows]
    exact Signed.term_row o more

/-- A whole expression is climbed from the pieces that the grammar gives. -/
theorem follows_rawExpression : Follows Climbed expression rawExpression := by
  apply Follows.named
  apply follows_bind
  intro _
  apply follows_bind
  intro c
  apply (follows_rawExpr _).bind
  intro t raw ht
  apply follows_bind
  intro _
  apply follows_bind
  intro _
  exact follows_pure ht

end Script.Scanner

/-- Climbing never meets a part where it may not stand, and gives the term that the text spells. -/
theorem Term.climbText_eq (text : String) : climbText text = (ofText text).map .ok := by
  have hsame := Script.Scanner.follows_rawExpression (.ofString text) .none
  unfold climbText ofText Script.Scanner.answer
  generalize Script.Scanner.expression (.ofString text) .none = found,
    Script.Scanner.rawExpression (.ofString text) .none = found' at hsame
  cases hsame with
  | found c a h => exact congrArg Except.ok h
  | refused a => rfl

end RecordLayout
