import RecordLayout.Proofs.Script.Scanning

/-!
# What stands between lexemes

A gap is made of separators and comments. A comment either goes on to the end of its line or is
closed, and the first closing mark ends it. A gap is read whole, whatever follows it.
-/

namespace RecordLayout.Script

/-- A piece of a gap. -/
inductive Space where
  | separator (c : Char)
  /-- A comment with its line feed. -/
  | line (text : List Char)
  /-- A comment with its closing mark. -/
  | block (text : List Char)
  deriving DecidableEq, Repr

namespace Space

/-- The characters of a piece. -/
def render : Space → List Char
  | separator c => [c]
  | line text => '/' :: '/' :: (text ++ ['\n'])
  | block text => '/' :: '*' :: (text ++ ['*', '/'])

/-- The piece is what it says: nothing inside a comment ends it. -/
def Fits : Space → Prop
  | separator c => Text.isSeparator c = true
  | line text => '\n' ∉ text
  | block text => ¬ ['*', '/'] <:+: text

/-- The characters of a gap. -/
def renderAll (spaces : List Space) : List Char := spaces.flatMap render

@[simp] theorem renderAll_nil : renderAll [] = [] := rfl

@[simp] theorem renderAll_cons (space : Space) (spaces : List Space) :
    renderAll (space :: spaces) = space.render ++ renderAll spaces := List.flatMap_cons

/-- All pieces of the gap are what they say. -/
def AllFit (spaces : List Space) : Prop := ∀ space ∈ spaces, space.Fits

variable {spaces : List Space} {space : Space}

theorem allFit_nil : AllFit [] := fun _ h => absurd h List.not_mem_nil

/-- A gap begins with a separator or with the mark of a comment. -/
theorem head_render (h : space.Fits) :
    ∃ c more, space.render = c :: more ∧ (Text.isSeparator c = true ∨ c = '/') := by
  cases space with
  | separator c => exact ⟨c, [], rfl, .inl h⟩
  | line text => exact ⟨'/', _, rfl, .inr rfl⟩
  | block text => exact ⟨'/', _, rfl, .inr rfl⟩

/-- What stands in front of a rest: the gap, if there is one, or the rest itself. -/
theorem head_renderAll (h : AllFit spaces) {rest : List Char} {c : Char}
    (hc : c ∈ (renderAll spaces ++ rest).head?) :
    (Text.isSeparator c = true ∨ c = '/') ∨ spaces = [] ∧ c ∈ rest.head? := by
  cases spaces with
  | nil => exact .inr ⟨rfl, hc⟩
  | cons space spaces =>
    obtain ⟨d, more, hrender, hd⟩ := head_render (h space List.mem_cons_self)
    rw [renderAll_cons, hrender] at hc
    cases hc
    exact .inl hd

end Space

/-! ## How a gap is skipped -/

section

variable {p : Position} {c : Char} {text rest : List Char} {opened : Cursor}

theorem skipGap_separator (h : Text.isSeparator c = true) :
    skipGap .blank p (c :: rest) = skipGap .blank (p.next c) rest := by
  have hslash : c ≠ '/' := by
    rintro rfl
    revert h
    decide
  rw [skipGap.eq_3 p c rest (fun _ hc => absurd hc hslash) (fun _ hc => absurd hc hslash), if_pos h]

/-- A comment that ends with its line. -/
theorem skipGap_line (h : '\n' ∉ text) :
    skipGap .line p (text ++ '\n' :: rest) =
      skipGap .blank ((p.after text).next '\n') rest := by
  induction text generalizing p with
  | nil => rfl
  | cons c text ih =>
    obtain ⟨hc, htext⟩ := List.ne_and_not_mem_of_not_mem_cons h
    rw [List.cons_append, skipGap, if_neg hc.symm, ih htext]
    rfl

/-- Inside a comment that has to be closed, a character that does not begin the closing mark. -/
theorem skipGap_inside (h : c = '*' → '/' ∉ rest.head?) :
    skipGap (.block opened) p (c :: rest) = skipGap (.block opened) (p.next c) rest := by
  apply skipGap.eq_6
  rintro more hc rfl
  exact h hc rfl

/-- A comment that is closed. -/
theorem skipGap_block (h : ¬ ['*', '/'] <:+: text) :
    skipGap (.block opened) p (text ++ '*' :: '/' :: rest) =
      skipGap .blank (((p.after text).next '*').next '/') rest := by
  induction text generalizing p with
  | nil => rfl
  | cons c text ih =>
    have htext : ¬ ['*', '/'] <:+: text := fun hinfix => h (List.infix_cons_iff.mpr (.inr hinfix))
    have hc : c = '*' → '/' ∉ (text ++ '*' :: '/' :: rest).head? := by
      rintro rfl hmem
      cases text with
      | nil => cases hmem
      | cons d text =>
        cases hmem
        exact h ⟨[], text, rfl⟩
    rw [List.cons_append, skipGap_inside hc, ih htext]
    rfl

/-- A gap is skipped piece by piece. -/
theorem skipGap_space {space : Space} (h : space.Fits) :
    skipGap .blank p (space.render ++ rest) = skipGap .blank (p.after space.render) rest := by
  cases space with
  | separator c => exact skipGap_separator h
  | line text =>
    have hskip : skipGap .line ((p.next '/').next '/') (text ++ '\n' :: rest) = _ := skipGap_line h
    simp only [Space.render, List.cons_append, List.append_assoc, List.nil_append,
      Position.after_cons, Position.after_append, Position.after_nil]
    exact hskip
  | block text =>
    simp only [Space.render, List.cons_append, List.append_assoc, List.nil_append,
      Position.after_cons, Position.after_append, Position.after_nil]
    exact skipGap_block h

theorem skipGap_spaces {spaces : List Space} (h : Space.AllFit spaces) :
    skipGap .blank p (Space.renderAll spaces ++ rest) =
      skipGap .blank (p.after (Space.renderAll spaces)) rest := by
  induction spaces generalizing p with
  | nil => rfl
  | cons space spaces ih =>
    have hspace := h space List.mem_cons_self
    have hspaces := ih (p := p.after space.render)
      fun s hs => h s (List.mem_cons_of_mem space hs)
    rw [Space.renderAll_cons, List.append_assoc, skipGap_space hspace, hspaces,
      Position.after_append]

end

namespace Scanner

variable {rest : List Char}

/-- A gap ends where something else begins. -/
theorem reads_spaces {spaces : List Space} (h : Space.AllFit spaces) (hrest : Solid rest) :
    Reads gap (Space.renderAll spaces ++ rest) () rest := by
  intro place attempts
  refine ⟨place.after (Space.renderAll spaces), attempts, ?_⟩
  simp only [gap, skipGap_spaces h, hrest _]
  rfl

/-- Where there is no gap nothing is skipped. -/
theorem reads_no_spaces (hrest : Solid rest) : Reads gap rest () rest :=
  reads_spaces Space.allFit_nil hrest

end Scanner

end RecordLayout.Script
