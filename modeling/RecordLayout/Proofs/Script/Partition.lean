import RecordLayout.Proofs.Script.Spaces
import RecordLayout.Proofs.Script.TokenPlaces

/-!
# Nothing is left out

The texts of the tokens of a script and the gaps between them are the whole script
(`tokens_partition`). A gap is made of separators and comments and nothing else; a token begins and
ends with a character of its own, so it takes no part of a gap with it.

A scanner is described by what lies between the place where it starts and the place where it stops:
`Answers` relates the two, and a rule for each way to put scanners together carries a relation from
the parts to the whole.
-/

namespace RecordLayout.Script

/-! ## Gaps -/

/-- The characters of a gap. -/
def IsGap (chars : List Char) : Prop :=
  ∃ spaces, Space.AllFit spaces ∧ chars = Space.renderAll spaces

/-- The characters of a gap at the end of a script, where a comment may go on to the end. -/
def IsLastGap (chars : List Char) : Prop :=
  IsGap chars ∨ ∃ before text, IsGap before ∧ '\n' ∉ text ∧ chars = before ++ '/' :: '/' :: text

/-- Between the front of the input and the rest there is a gap. -/
def GapTo (input rest : List Char) : Prop :=
  ∃ gap, input = gap ++ rest ∧ (IsGap gap ∨ rest = [] ∧ IsLastGap gap)

theorem isGap_nil : IsGap [] := ⟨[], Space.allFit_nil, rfl⟩

theorem IsGap.cons {space : Space} (hspace : space.Fits) {gap : List Char} (h : IsGap gap) :
    IsGap (space.render ++ gap) := by
  obtain ⟨spaces, hspaces, rfl⟩ := h
  exact ⟨space :: spaces, List.forall_mem_cons.mpr ⟨hspace, hspaces⟩, rfl⟩

theorem IsGap.append {gap more : List Char} (h : IsGap gap) (h' : IsGap more) :
    IsGap (gap ++ more) := by
  obtain ⟨spaces, hspaces, rfl⟩ := h
  obtain ⟨spaces', hspaces', rfl⟩ := h'
  refine ⟨spaces ++ spaces', fun space hmem => ?_, List.flatMap_append.symm⟩
  rcases List.mem_append.mp hmem with hmem | hmem
  · exact hspaces space hmem
  · exact hspaces' space hmem

theorem IsLastGap.append {gap more : List Char} (h : IsGap gap) (h' : IsLastGap more) :
    IsLastGap (gap ++ more) := by
  rcases h' with h' | ⟨before, text, hbefore, htext, rfl⟩
  · exact .inl (h.append h')
  · exact .inr ⟨gap ++ before, text, h.append hbefore, htext, (List.append_assoc _ _ _).symm⟩

namespace GapTo

variable {input mid rest : List Char}

theorem refl (input : List Char) : GapTo input input := ⟨[], rfl, .inl isGap_nil⟩

theorem cons {space : Space} (hspace : space.Fits) (h : GapTo input rest) :
    GapTo (space.render ++ input) rest := by
  obtain ⟨gap, rfl, hgap⟩ := h
  refine ⟨space.render ++ gap, (List.append_assoc _ _ _).symm, ?_⟩
  have hone : IsGap (space.render ++ []) := isGap_nil.cons hspace
  rw [List.append_nil] at hone
  exact hgap.imp (IsGap.cons hspace) fun hlast => ⟨hlast.1, IsLastGap.append hone hlast.2⟩

/-- A gap that goes on behind a gap is one gap. -/
theorem trans (h : GapTo input mid) (h' : GapTo mid rest) : GapTo input rest := by
  obtain ⟨gap, rfl, hgap⟩ := h
  obtain ⟨more, rfl, hmore⟩ := h'
  rcases hgap with hgap | ⟨hnil, hgap⟩
  · refine ⟨gap ++ more, (List.append_assoc _ _ _).symm, ?_⟩
    exact hmore.imp hgap.append fun hlast => ⟨hlast.1, IsLastGap.append hgap hlast.2⟩
  · obtain ⟨rfl, rfl⟩ := List.append_eq_nil_iff.mp hnil
    exact ⟨gap, rfl, .inr ⟨rfl, hgap⟩⟩

end GapTo

/-- What lies between the input and the place where skipping stops, depending on where it begins. -/
def Gap.Leaves (input : List Char) (stop : Cursor) : Gap → Prop
  | .blank => GapTo input stop.rest
  | .line => ('\n' ∉ input ∧ stop.rest = []) ∨
      ∃ text more, '\n' ∉ text ∧ input = text ++ '\n' :: more ∧ GapTo more stop.rest
  | .block opened => stop = opened ∨
      ∃ text more, ¬ ['*', '/'] <:+: text ∧ input = text ++ '*' :: '/' :: more ∧
        GapTo more stop.rest

/-- One case for each step of the skipping, inside comments and between them. -/
theorem skipGap_leaves (g : Gap) (p : Position) (input : List Char) :
    g.Leaves input (skipGap g p input) := by
  fun_induction skipGap g p input with
  | case1 p rest ih =>
    -- The comment goes on to the end of the script or ends with its line.
    rcases ih with ⟨hline, hstop⟩ | ⟨text, more, htext, rfl, hmore⟩
    · refine ⟨'/' :: '/' :: rest, ?_, .inr ⟨hstop, .inr ⟨[], rest, isGap_nil, hline, rfl⟩⟩⟩
      rw [hstop, List.append_nil]
    · have hgap := hmore.cons (show (Space.line text).Fits from htext)
      simp only [Space.render, List.cons_append, List.append_assoc, List.nil_append] at hgap
      exact hgap
  | case2 p rest ih =>
    -- A comment that is never closed is no gap: skipping goes back to where it begins.
    rcases ih with hstop | ⟨text, more, htext, rfl, hmore⟩
    · rw [hstop]
      exact .refl _
    · have hgap := hmore.cons (show (Space.block text).Fits from htext)
      simp only [Space.render, List.cons_append, List.append_assoc, List.nil_append] at hgap
      exact hgap
  | case3 p c rest _ _ hc ih => exact ih.cons (show (Space.separator c).Fits from hc)
  | case4 p c rest _ _ hc => exact .refl _
  | case5 p c rest ih =>
    by_cases hc : c = '\n'
    · subst hc
      exact .inr ⟨[], rest, List.not_mem_nil, rfl, ih⟩
    · rw [if_neg hc] at ih ⊢
      rcases ih with ⟨hline, hstop⟩ | ⟨text, more, htext, rfl, hmore⟩
      · exact .inl ⟨List.not_mem_cons_of_ne_of_not_mem (Ne.symm hc) hline, hstop⟩
      · exact .inr ⟨c :: text, more, List.not_mem_cons_of_ne_of_not_mem (Ne.symm hc) htext, rfl,
          hmore⟩
  | case6 opened p rest ih => exact .inr ⟨[], rest, by simp, rfl, ih⟩
  | case7 opened p c rest hclose ih =>
    rcases ih with hstop | ⟨text, more, htext, rfl, hmore⟩
    · exact .inl hstop
    · refine .inr ⟨c :: text, more, fun hinfix => ?_, rfl, hmore⟩
      rcases List.infix_cons_iff.mp hinfix with hfront | hinfix
      · obtain ⟨behind, hfront⟩ := hfront
        obtain ⟨hc, htext'⟩ := List.cons.inj hfront
        refine hclose (behind ++ '*' :: '/' :: more) hc.symm ?_
        rw [← htext']
        rfl
      · exact htext hinfix
  | case8 opened p => exact .inl rfl
  | case9 g p hopened =>
    cases g with
    | blank => exact .refl []
    | line => exact .inl ⟨List.not_mem_nil, rfl⟩
    | block opened => exact absurd rfl (hopened opened)

/-- No gap begins at the cursor. -/
def Cursor.Settled (c : Cursor) : Prop := skipGap .blank c.position c.rest = c

/-- Skipping a gap skips it whole. -/
theorem settled_skipGap (g : Gap) (p : Position) (input : List Char) :
    (skipGap g p input).Settled ∨ ∃ opened, g = .block opened ∧ skipGap g p input = opened := by
  fun_induction skipGap g p input with
  | case1 p rest ih =>
    rcases ih with ih | ⟨_, hline, -⟩
    · exact .inl ih
    · cases hline
  | case2 p rest ih =>
    rcases ih with ih | ⟨_, ⟨⟩, hstop⟩
    · exact .inl ih
    · -- a comment that is not closed: skipping again stops at its mark again
      rw [hstop]
      exact .inl hstop
  | case3 p c rest _ _ hc ih =>
    rcases ih with ih | ⟨_, hblank, -⟩
    · exact .inl ih
    · cases hblank
  | case4 p c rest hline hblock hc =>
    refine .inl ?_
    rw [Cursor.Settled, skipGap.eq_3 p c rest hline hblock, if_neg hc]
  | case5 p c rest ih =>
    rcases ih with ih | ⟨_, hmode, -⟩
    · exact .inl ih
    · split at hmode <;> cases hmode
  | case6 opened p rest ih =>
    rcases ih with ih | ⟨_, hblank, -⟩
    · exact .inl ih
    · cases hblank
  | case7 opened p c rest _ ih =>
    rcases ih with ih | ⟨_, hmode, hstop⟩
    · exact .inl ih
    · exact .inr ⟨_, hmode, hstop⟩
  | case8 opened p => exact .inr ⟨opened, rfl, rfl⟩
  | case9 g p hopened => exact .inl rfl

/-- The gap in front of a cursor is skipped whole. -/
theorem settled_skipGap_blank (c : Cursor) : (skipGap .blank c.position c.rest).Settled := by
  rcases settled_skipGap .blank c.position c.rest with h | ⟨_, hblank, -⟩
  · exact h
  · cases hblank

namespace Scanner

variable {α β : Type} {R : Cursor → α → Cursor → Prop} {s t : Scanner α} {f : α → Scanner β}

/-! ## Where scanners start and stop -/

/-- Where the scanner answers, the place where it starts, its value and the place where it stops
are related. -/
def Answers (R : Cursor → α → Cursor → Prop) (s : Scanner α) : Prop :=
  ∀ c a x c' a', s c a = (some (x, c'), a') → R c x c'

theorem Answers.mono {S : Cursor → α → Cursor → Prop} (h : Answers R s)
    (hRS : ∀ c x c', R c x c' → S c x c') : Answers S s :=
  fun c a x c' a' hs => hRS _ _ _ (h c a x c' a' hs)

theorem Answers.and {S : Cursor → α → Cursor → Prop} (h : Answers R s) (h' : Answers S s) :
    Answers (fun c x c' => R c x c' ∧ S c x c') s :=
  fun c a x c' a' hs => ⟨h c a x c' a' hs, h' c a x c' a' hs⟩

theorem answers_value (x : α) : Answers (fun c y c' => y = x ∧ c' = c) (pure x) := by
  intro c a y c' a' hs
  cases hs
  exact ⟨rfl, rfl⟩

theorem answers_pure {x : α} (h : ∀ c, R c x c) : Answers R (pure x) := by
  refine (answers_value x).mono ?_
  rintro c y c' ⟨rfl, rfl⟩
  exact h c'

/-- Two scanners in a row answer when the first does and then the second. -/
theorem Answers.bind {S : α → Cursor → β → Cursor → Prop} (h : Answers R s)
    (hf : ∀ x, Answers (S x) (f x)) :
    Answers (fun c y c' => ∃ x mid, R c x mid ∧ S x mid y c') (s >>= f) := by
  intro c a y c' a' hs
  cases hfirst : s c a with
  | mk result a₁ =>
    cases result with
    | none =>
      rw [bind_of_none hfirst] at hs
      cases hs
    | some found =>
      rw [bind_of_some hfirst] at hs
      exact ⟨found.1, found.2, h _ _ _ _ _ hfirst, hf _ _ _ _ _ _ hs⟩

/-- An answer of two alternatives is one of either. -/
theorem Answers.orElse (h : Answers R s) (h' : Answers R t) : Answers R (s <|> t) := by
  intro c a x c' a' hs
  cases hfirst : s c a with
  | mk result a₁ =>
    cases result with
    | none =>
      rw [orElse_of_none hfirst] at hs
      exact h' _ _ _ _ _ hs
    | some found =>
      rw [orElse_of_some hfirst, Prod.mk.injEq, Option.some.injEq] at hs
      exact h _ _ _ _ _ (hfirst.trans (by rw [hs.1]))

theorem Answers.named (production : Production) (h : Answers R s) :
    Answers R (named production s) := by
  intro c a x c' a' hs
  simp only [Scanner.named] at hs
  cases hfirst : s c a with
  | mk result a₁ =>
    rw [hfirst] at hs
    cases result with
    | none => cases hs
    | some found =>
      cases hs
      exact h _ _ _ _ _ hfirst

theorem answers_get : Answers (fun c x c' => x = c ∧ c' = c) (get : Scanner Cursor) := by
  intro c a x c' a' hs
  cases hs
  exact ⟨rfl, rfl⟩

theorem answers_gap : Answers (fun c _ c' => c' = skipGap .blank c.position c.rest) gap := by
  intro c a x c' a' hs
  cases hs
  rfl

theorem answers_atEnd : Answers (fun c _ c' => c' = c ∧ c.rest = []) atEnd := by
  rintro ⟨place, rest⟩ a x c' a' hs
  cases rest with
  | nil =>
    cases hs
    exact ⟨rfl, rfl⟩
  | cons y rest => cases hs

/-- A scanner moves on. -/
theorem answers_of_stays {V : Cursor → α → Prop} (h : ∀ origin, Stays origin (V origin) s) :
    Answers (fun c _ c' => c.Reaches c') s := by
  intro c a x c' a' hs
  have hleft := h c c a (.refl c)
  rw [hs] at hleft
  exact hleft.2.1

/-! ### Values in a row -/

/-- Values in a row, each starting where the one before stops. -/
inductive Chain (R : Cursor → α → Cursor → Prop) : Cursor → List α → Cursor → Prop where
  | nil (c : Cursor) : Chain R c [] c
  | cons {c mid c' : Cursor} {x : α} {xs : List α} (head : R c x mid) (tail : Chain R mid xs c') :
    Chain R c (x :: xs) c'

/-- Values in a row answer in a row, by induction over the limit. -/
theorem Answers.repeatUpTo (h : Answers R s) (limit : Nat) :
    Answers (Chain R) (repeatUpTo s limit) := by
  induction limit with
  | zero => exact answers_pure .nil
  | succ limit ih =>
    apply Answers.orElse
    · refine (h.bind fun x => ih.bind fun xs => answers_value (x :: xs)).mono ?_
      rintro c ys c' ⟨x, mid, hx, xs, _, hxs, rfl, rfl⟩
      exact .cons hx hxs
    · exact answers_pure .nil

theorem Answers.many (h : Answers R s) : Answers (Chain R) (many s) := by
  refine (answers_get.bind fun c => h.repeatUpTo (c.rest.length + 1)).mono ?_
  rintro c xs c' ⟨_, _, ⟨rfl, rfl⟩, hxs⟩
  exact hxs

/-- A value behind a gap. -/
def PastGap (R : Cursor → α → Cursor → Prop) (c : Cursor) (x : α) (c' : Cursor) : Prop :=
  R (skipGap .blank c.position c.rest) x c'

/-- Values with gaps between, the first of them without a gap in front. -/
theorem Answers.manyApart (h : Answers R s) :
    Answers (fun c xs c' => (xs = [] ∧ c' = c) ∨
      ∃ x more mid, xs = x :: more ∧ R c x mid ∧ Chain (PastGap R) mid more c') (manyApart s) := by
  have hlater : Answers (PastGap R) (do gap; s) := by
    refine (answers_gap.bind fun _ => h).mono ?_
    rintro c x c' ⟨_, _, rfl, hx⟩
    exact hx
  apply Answers.orElse
  · refine (h.bind fun x => hlater.many.bind fun more => answers_value (x :: more)).mono ?_
    rintro c xs c' ⟨x, mid, hx, more, _, hmore, rfl, rfl⟩
    exact .inr ⟨x, more, mid, rfl, hx, hmore⟩
  · exact answers_pure fun c => .inl ⟨rfl, rfl⟩

/-! ## First and last characters -/

/-- The scanner takes at least one character, and the last one is in the class. -/
def EndsIn (q : Char → Prop) (s : Scanner α) : Prop :=
  Answers (fun c _ c' => ∃ between x, c.rest = between ++ x :: c'.rest ∧ q x) s

/-- From a place where no gap begins, the scanner does not move unless the first character is in the
class. -/
def MayBeginIn (q : Char → Prop) (s : Scanner α) : Prop :=
  Answers (fun c _ c' => c.Settled → c' = c ∨ ∃ x ∈ c.rest.head?, q x) s

/-- From a place where no gap begins, the first character is in the class. -/
def BeginsIn (q : Char → Prop) (s : Scanner α) : Prop :=
  Answers (fun c _ _ => c.Settled → ∃ x ∈ c.rest.head?, q x) s

variable {q : Char → Prop} {W : Cursor → α → Prop}

/-- What takes characters at its end still does behind something that moves on. -/
theorem EndsIn.after (h : ∀ origin, Stays origin (W origin) s) (hf : ∀ x, EndsIn q (f x)) :
    EndsIn q (s >>= f) := by
  refine ((answers_of_stays h).bind hf).mono ?_
  rintro c y c' ⟨_, mid, ⟨before, hbefore, -⟩, between, x, hbetween, hx⟩
  exact ⟨before ++ between, x, by rw [hbefore, hbetween, List.append_assoc], hx⟩

theorem EndsIn.bind_pure (h : EndsIn q s) {g : α → β} :
    EndsIn q (s >>= fun x => pure (g x)) := by
  refine (h.bind fun x => answers_value (g x)).mono ?_
  rintro c y c' ⟨_, _, hends, -, rfl⟩
  exact hends

theorem EndsIn.map (h : EndsIn q s) {g : α → β} : EndsIn q (g <$> s) := by
  rw [← bind_pure_comp]
  exact h.bind_pure

/-- Where the first part does not move, the second begins. -/
theorem MayBeginIn.bind (h : MayBeginIn q s) (hf : ∀ x, BeginsIn q (f x)) :
    BeginsIn q (s >>= f) := by
  refine (Answers.bind h hf).mono ?_
  rintro c y c' ⟨_, mid, hfirst, hsecond⟩ hc
  rcases hfirst hc with rfl | hx
  · exact hsecond hc
  · exact hx

/-- What comes behind the first character is left open. -/
theorem BeginsIn.bind (h : BeginsIn q s) : BeginsIn q (s >>= f) := by
  have hany : ∀ x, Answers (fun _ _ _ => True) (f x) := fun _ _ _ _ _ _ _ => trivial
  refine (Answers.bind h hany).mono ?_
  rintro c y c' ⟨_, mid, hfirst, -⟩
  exact hfirst

theorem BeginsIn.map (h : BeginsIn q s) {g : α → β} : BeginsIn q (g <$> s) := by
  rw [← bind_pure_comp]
  exact h.bind

theorem BeginsIn.maybe (h : BeginsIn q s) : MayBeginIn q (maybe s) := by
  apply Answers.orElse
  · exact h.map.mono fun c x c' hx hc => .inr (hx hc)
  · exact answers_pure fun c _ => .inl rfl

theorem mayBeginIn_gap : MayBeginIn q gap :=
  answers_gap.mono fun _ _ _ hgap hc => .inl (hgap.trans hc)

theorem answers_char {p : Char → Bool} :
    Answers (fun c x c' => p x = true ∧ c.rest = x :: c'.rest) (char p) := by
  rintro ⟨place, rest⟩ a x c' a' hs
  unfold char at hs
  cases rest with
  | nil => cases hs
  | cons y rest =>
    dsimp only at hs
    split at hs
    · rename_i hy
      cases hs
      exact ⟨hy, rfl⟩
    · cases hs

theorem beginsIn_char {p : Char → Bool} (hp : ∀ x, p x = true → q x) : BeginsIn q (char p) := by
  refine answers_char.mono ?_
  rintro c x c' ⟨hx, hrest⟩ -
  exact ⟨x, by rw [hrest]; rfl, hp x hx⟩

theorem beginsIn_symbol {x : Char} (hx : q x) : BeginsIn q (symbol x) := by
  apply BeginsIn.bind
  exact beginsIn_char fun y hy => beq_iff_eq.mp hy ▸ hx

theorem endsIn_symbol {x : Char} (hx : q x) : EndsIn q (symbol x) := by
  have hchar : EndsIn q (char (· == x)) := by
    refine answers_char.mono ?_
    rintro c y c' ⟨hy, hrest⟩
    exact ⟨[], y, hrest, beq_iff_eq.mp hy ▸ hx⟩
  exact hchar.bind_pure

end Scanner

/-! ## Declarations -/

/-- A character that begins a declaration. -/
def IsFirst (x : Char) : Prop := isNameStart x = true ∨ x ∈ ['<', '>', '[', '\x7b', '\x7d']

/-- A character that ends a declaration. -/
def IsLast (x : Char) : Prop := x ∈ [';', '\x7b', '\x7d']

namespace Scanner

theorem beginsIn_byteOrder : BeginsIn IsFirst byteOrder := by
  apply Answers.named
  apply Answers.orElse
  · exact (beginsIn_symbol (x := '<') (.inr (by decide))).bind
  · exact (beginsIn_symbol (x := '>') (.inr (by decide))).bind

theorem beginsIn_typeName : BeginsIn IsFirst typeName := by
  apply Answers.named
  apply Answers.orElse
  · apply BeginsIn.bind
    apply BeginsIn.bind
    exact beginsIn_char fun x hx => beq_iff_eq.mp hx ▸ .inl (by decide)
  · apply BeginsIn.bind
    exact beginsIn_char fun x hx => .inl (by rw [isNameStart, hx, Bool.true_or])

theorem beginsIn_arraySize : BeginsIn IsFirst arraySize := by
  apply Answers.named
  exact (beginsIn_symbol (.inr (by decide))).bind

theorem beginsIn_fieldName : BeginsIn IsFirst fieldName := by
  apply Answers.named
  apply BeginsIn.bind
  exact beginsIn_char fun x hx => .inl hx

theorem beginsIn_structEnd : BeginsIn IsFirst structEnd := by
  apply Answers.named
  exact (beginsIn_symbol (.inr (by decide))).bind

theorem beginsIn_structStart : BeginsIn IsFirst structStart := by
  apply Answers.named
  apply beginsIn_fieldName.maybe.bind
  intro _
  apply mayBeginIn_gap.bind
  intro _
  apply beginsIn_arraySize.maybe.bind
  intro _
  apply mayBeginIn_gap.bind
  intro _
  exact (beginsIn_symbol (.inr (by decide))).bind

/-- A field begins with the mark of its byte order or with its type. -/
theorem beginsIn_fieldDecl : BeginsIn IsFirst fieldDecl := by
  apply Answers.named
  apply beginsIn_byteOrder.maybe.bind
  intro _
  apply mayBeginIn_gap.bind
  intro _
  exact beginsIn_typeName.bind

theorem beginsIn_declaration : BeginsIn IsFirst declaration :=
  Answers.orElse beginsIn_structEnd.map (Answers.orElse beginsIn_structStart.map beginsIn_fieldDecl)

theorem endsIn_structEnd : EndsIn IsLast structEnd := by
  apply Answers.named
  exact (endsIn_symbol (x := '\x7d') (by simp [IsLast])).bind_pure

theorem endsIn_structStart : EndsIn IsLast structStart := by
  apply Answers.named
  apply EndsIn.after fun _ => stays_fieldName.maybe
  intro _
  apply EndsIn.after fun _ => stays_gap
  intro _
  apply EndsIn.after fun _ => stays_arraySize.maybe
  intro _
  apply EndsIn.after fun _ => stays_gap
  intro _
  exact (endsIn_symbol (x := '\x7b') (by simp [IsLast])).bind_pure

theorem endsIn_fieldDecl : EndsIn IsLast fieldDecl := by
  apply Answers.named
  apply EndsIn.after fun _ => stays_byteOrder.maybe
  intro _
  apply EndsIn.after fun _ => stays_gap
  intro _
  apply EndsIn.after fun _ => stays_typeName
  intro _
  apply EndsIn.after fun _ => stays_gap
  intro _
  apply EndsIn.after fun _ => stays_typeExtra.maybe
  intro _
  apply EndsIn.after fun _ => stays_gap
  intro _
  apply EndsIn.after fun _ => stays_arraySize.maybe
  intro _
  apply EndsIn.after fun _ => stays_gap
  intro _
  apply EndsIn.after fun _ => stays_fieldName.maybe
  intro _
  apply EndsIn.after fun _ => stays_gap
  intro _
  exact (endsIn_symbol (x := ';') (by simp [IsLast])).bind_pure

theorem endsIn_declaration : EndsIn IsLast declaration :=
  Answers.orElse endsIn_structEnd.map (Answers.orElse endsIn_structStart.map endsIn_fieldDecl)

/-- What a token takes of the script: its text, from its place on. -/
structure Taken (c : Cursor) (x : Except Error Token) (c' : Cursor) : Prop where
  reaches : c.Reaches c'
  token : ∀ t, x = .ok t → t.text = String.ofList (c.upTo c') ∧ t.position = c.position
  last : ∃ between y, c.rest = between ++ y :: c'.rest ∧ IsLast y
  first : c.Settled → ∃ y ∈ c.rest.head?, IsFirst y

/-- A token has the place where it starts and the characters up to where it stops. -/
theorem answers_token : Answers Taken token := by
  have hdeclaration := (answers_of_stays fun _ => stays_declaration stays_fieldName).and
    (endsIn_declaration.and beginsIn_declaration)
  refine (answers_get.bind fun start => hdeclaration.bind fun found => answers_get.bind fun stop =>
    answers_value
      (found.map fun d => (⟨d, String.ofList (start.upTo stop), start.position⟩ : Token))).mono ?_
  rintro c x c' ⟨_, _, ⟨rfl, rfl⟩, found, mid, ⟨hreaches, hlast, hfirst⟩, _, _, ⟨rfl, rfl⟩, rfl,
    rfl⟩
  refine ⟨hreaches, fun t ht => ?_, hlast, hfirst⟩
  cases found with
  | error e => cases ht
  | ok d =>
    cases ht
    exact ⟨rfl, rfl⟩

/-- A script is read token by token, with gaps in front of them and a last gap behind them. -/
theorem answers_script :
    Answers (fun c xs _ => ∃ mid, Chain (PastGap Taken) c xs mid ∧ GapTo mid.rest []) script := by
  apply Answers.named
  refine (answers_gap.bind fun _ => answers_token.manyApart.bind fun found => answers_gap.bind fun _ =>
    (answers_atEnd.named _).bind fun _ => answers_value found).mono ?_
  rintro c xs c' ⟨_, _, rfl, found, mid, hfound, _, _, rfl, _, _, ⟨rfl, hend⟩, rfl, rfl⟩
  have hgap : GapTo mid.rest [] := hend ▸ skipGap_leaves .blank mid.position mid.rest
  rcases hfound with ⟨rfl, rfl⟩ | ⟨x, more, mid', rfl, hx, hmore⟩
  · exact ⟨c, .nil c, (skipGap_leaves .blank c.position c.rest).trans hgap⟩
  · exact ⟨mid, .cons hx hmore, hgap⟩

end Scanner

/-! ## The whole script -/

/-- A token with the gap in front of it. -/
structure Piece where
  gap : List Char
  token : Token

/-- The characters of a piece. -/
def Piece.chars (piece : Piece) : List Char := piece.gap ++ piece.token.text.toList

/-- The text begins and ends as declarations do. -/
def IsLexeme (text : List Char) : Prop :=
  (∃ x ∈ text.head?, IsFirst x) ∧ ∃ x ∈ text.getLast?, IsLast x

/-- The pieces stand one behind the other: a gap, and at its end the token. -/
structure Placed (before : List Char) (pieces : List Piece) : Prop where
  gap : ∀ piece ∈ pieces, IsGap piece.gap
  text : ∀ piece ∈ pieces, IsLexeme piece.token.text.toList
  position : ∀ front piece back, pieces = front ++ piece :: back →
    piece.token.position = .behind (before ++ front.flatMap Piece.chars ++ piece.gap)
  increasing : pieces.Pairwise fun piece later =>
    piece.token.position.offset < later.token.position.offset

theorem placed_nil (before : List Char) : Placed before [] := by
  refine ⟨fun _ h => absurd h List.not_mem_nil, fun _ h => absurd h List.not_mem_nil, ?_, .nil⟩
  intro front piece back h
  cases front <;> cases h

/-- A gap and a lexeme in front of others. -/
theorem Placed.cons {before : List Char} {piece : Piece} {pieces : List Piece}
    (hgap : IsGap piece.gap) (htext : IsLexeme piece.token.text.toList)
    (hposition : piece.token.position = .behind (before ++ piece.gap))
    (h : Placed (before ++ piece.chars) pieces) : Placed before (piece :: pieces) := by
  refine ⟨List.forall_mem_cons.mpr ⟨hgap, h.gap⟩, List.forall_mem_cons.mpr ⟨htext, h.text⟩, ?_,
    .cons ?_ h.increasing⟩
  · intro front piece' back hpieces
    cases front with
    | nil =>
      cases hpieces
      rw [List.flatMap_nil, List.append_nil]
      exact hposition
    | cons first front =>
      rw [List.cons_append, List.cons.injEq] at hpieces
      obtain ⟨rfl, hpieces⟩ := hpieces
      rw [h.position front piece' back hpieces, List.flatMap_cons, List.append_assoc before]
  · -- a later token stands behind the text of this one, which is not empty
    intro later hlater
    obtain ⟨front, back, hpieces⟩ := List.append_of_mem hlater
    have htext : 0 < String.utf8Len piece.token.text.toList := by
      rw [Nat.pos_iff_ne_zero, Ne, String.utf8Len_eq_zero]
      intro hnil
      obtain ⟨⟨x, hx, -⟩, -⟩ := htext
      rw [hnil] at hx
      cases hx
    rw [hposition, h.position front later back hpieces]
    simp only [Position.behind, Piece.chars, String.utf8Len_append]
    omega

/-- A token behind a gap, as characters. -/
theorem Scanner.piece_of_taken {before : List Char} {c c' : Cursor} {t : Token}
    (hc : c.position = .behind before) (h : PastGap Taken c (.ok t) c') :
    ∃ gap, IsGap gap ∧ IsLexeme t.text.toList ∧ c.rest = gap ++ t.text.toList ++ c'.rest ∧
      t.position = .behind (before ++ gap) ∧
      c'.position = .behind (before ++ (gap ++ t.text.toList)) := by
  obtain ⟨text, hrest, hposition⟩ := h.reaches
  obtain ⟨htext, hplace⟩ := h.token t rfl
  rw [Cursor.upTo_eq hrest] at htext
  obtain ⟨between, y, hlast, hy⟩ := h.last
  have hends : text = between ++ [y] := by
    have hsplit : text ++ c'.rest = between ++ [y] ++ c'.rest := by
      rw [← hrest, hlast, List.append_assoc, List.singleton_append]
    exact List.append_cancel_right hsplit
  obtain ⟨gap, hgap, hkind⟩ := skipGap_leaves .blank c.position c.rest
  obtain ⟨gap', hgap', hstart⟩ :=
    skipGap_reached (g := .blank) trivial (Cursor.Reaches.refl c)
  have hsame : gap' = gap := List.append_cancel_right (hgap'.symm.trans hgap)
  subst hsame
  rw [htext, String.toList_ofList]
  refine ⟨gap', ?_, ⟨?_, ?_⟩, ?_, ?_, ?_⟩
  · rcases hkind with hkind | ⟨hnil, -⟩
    · exact hkind
    · rw [hrest, hends, List.append_assoc] at hnil
      simp at hnil
  · obtain ⟨x, hx, hfirst⟩ := h.first (settled_skipGap_blank c)
    refine ⟨x, ?_, hfirst⟩
    rw [hrest, hends] at hx
    rw [hends]
    cases between <;> exact hx
  · exact ⟨y, by rw [hends, List.getLast?_concat]; rfl, hy⟩
  · rw [hgap, hrest, List.append_assoc]
  · rw [hplace, hstart, hc, ← Position.start_after, ← Position.start_after, Position.after_append]
  · rw [hposition, hstart, hc, ← Position.start_after, ← Position.start_after,
      Position.after_append, Position.after_append]

/-- Tokens in a row with gaps in front of them stand in the text one behind the other. -/
theorem Scanner.placed_of_chain {before : List Char} {c c' : Cursor} {tokens : List Token}
    (hc : c.position = .behind before) (h : Chain (PastGap Taken) c (tokens.map .ok) c') :
    ∃ pieces, pieces.map Piece.token = tokens ∧ c.rest = pieces.flatMap Piece.chars ++ c'.rest ∧
      Placed before pieces := by
  induction tokens generalizing before c with
  | nil =>
    cases h
    exact ⟨[], rfl, rfl, placed_nil before⟩
  | cons t tokens ih =>
    cases h with
    | cons head tail =>
      obtain ⟨gap, hgap, htext, hrest, hposition, hnext⟩ := piece_of_taken hc head
      obtain ⟨pieces, rfl, hrest', hplaced⟩ := ih hnext tail
      refine ⟨⟨gap, t⟩ :: pieces, rfl, ?_, .cons hgap htext hposition hplaced⟩
      rw [hrest, hrest', List.flatMap_cons, Piece.chars]
      simp only [List.append_assoc]

theorem mapM_id_eq_ok {found : List (Except Error Token)} {tokens : List Token}
    (h : found.mapM id = .ok tokens) : found = tokens.map .ok := by
  induction found generalizing tokens with
  | nil =>
    cases h
    rfl
  | cons first found ih =>
    cases first with
    | error e => cases h
    | ok t =>
      rw [List.mapM_cons] at h
      cases hmore : found.mapM id with
      | error e =>
        rw [hmore] at h
        cases h
      | ok more =>
        rw [hmore] at h
        cases h
        rw [ih hmore, List.map_cons]

/-- A script is its gaps and the texts of its tokens. -/
theorem tokens_partition {source : String} {tokens : List Token}
    (h : tokenize source = .ok tokens) :
    ∃ (pieces : List Piece) (last : List Char), pieces.map Piece.token = tokens ∧
      source.toList = pieces.flatMap Piece.chars ++ last ∧
      (∀ piece ∈ pieces, IsGap piece.gap) ∧ IsLastGap last ∧
      (∀ front piece back, pieces = front ++ piece :: back →
        piece.token.position = .behind (front.flatMap Piece.chars ++ piece.gap)) ∧
      (∀ piece ∈ pieces, IsLexeme piece.token.text.toList) ∧
      tokens.Pairwise fun t later => t.position.offset < later.position.offset := by
  unfold tokenize at h
  cases hanswer : Scanner.script.answer (.ofString source) with
  | error attempts =>
    rw [hanswer] at h
    cases h
  | ok found =>
    rw [hanswer] at h
    obtain ⟨found, rest⟩ := found
    obtain rfl := mapM_id_eq_ok h
    unfold Scanner.answer at hanswer
    cases hresult : Scanner.script (.ofString source) .none with
    | mk result a =>
      rw [hresult] at hanswer
      cases result with
      | none => cases hanswer
      | some found =>
        cases hanswer
        obtain ⟨mid, hchain, last, hlast, hgap⟩ := Scanner.answers_script _ _ _ _ _ hresult
        have hstart : (Cursor.ofString source).position = .behind [] := rfl
        obtain ⟨pieces, rfl, hrest, hplaced⟩ := Scanner.placed_of_chain hstart hchain
        rw [List.append_nil] at hlast
        rw [hlast] at hrest
        refine ⟨pieces, last, rfl, hrest, hplaced.gap, ?_, hplaced.position, hplaced.text, ?_⟩
        · rcases hgap with hgap | ⟨-, hgap⟩
          · exact .inl hgap
          · exact hgap
        · exact List.pairwise_map.mpr hplaced.increasing

/-- A script with comments in front of a token, inside one and behind the last. -/
def commentedSource : String := "/**/bit // é\r\n a;\t\x7d//"

theorem tokenize_commentedSource : tokenize commentedSource =
    .ok [⟨.field ⟨none, "bit", none, none, some "a"⟩, "bit // é\r\n a;", ⟨4, 1, 5⟩⟩,
      ⟨.closing, "\x7d", ⟨19, 2, 5⟩⟩] := by cbv

/-- The comment inside a declaration belongs to its lexeme, those between declarations to the gaps.
-/
theorem tokens_partition_commentedSource :
    ∃ (tokens : List Token) (pieces : List Piece) (last : List Char),
      tokenize commentedSource = .ok tokens ∧ pieces.map Piece.token = tokens ∧
      commentedSource.toList = pieces.flatMap Piece.chars ++ last ∧
      (∀ piece ∈ pieces, IsGap piece.gap) ∧ IsLastGap last ∧
      (∀ front piece back, pieces = front ++ piece :: back →
        piece.token.position = .behind (front.flatMap Piece.chars ++ piece.gap)) ∧
      (∀ piece ∈ pieces, IsLexeme piece.token.text.toList) ∧
      tokens.Pairwise fun t later => t.position.offset < later.position.offset := by
  obtain ⟨pieces, last, hpartition⟩ := tokens_partition tokenize_commentedSource
  exact ⟨_, pieces, last, tokenize_commentedSource, hpartition⟩

end RecordLayout.Script
