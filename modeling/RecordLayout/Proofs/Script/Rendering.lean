import RecordLayout.Proofs.Expr.Grammar
import RecordLayout.Proofs.Script.Spaces
import RecordLayout.Script.Tokenize

/-!
# Scripts as they may be written

A declaration is written lexeme by lexeme, with a gap behind every lexeme but the last. In brackets
and in the parentheses of a parameter there are separators only, and nothing stands between the colon
of a parameter and the parameter. Two words in a row need a gap between them.
-/

namespace RecordLayout.Script

/-! ## What can be written -/

/-- Every group of parentheses is closed, `depth` of them being open before the text. -/
def Balanced : (depth : Nat) → List Char → Prop
  | depth, [] => depth = 0
  | depth, c :: rest =>
    if c = '(' then Balanced (depth + 1) rest
    else if c = ')' then 0 < depth ∧ Balanced (depth - 1) rest
    else Balanced depth rest

/-- The text of an expression: without blanks at its ends, with balanced parentheses, and without
characters that end a text or may begin a comment. -/
structure IsText (text : List Char) : Prop where
  trimmed : Text.trim text = text
  balanced : Balanced 0 text
  plain : ∀ c ∈ text, endsText c = false ∧ c ≠ '/'

/-- The name of a type: a letter and then letters, digits and underscores, or the directive that
starts counters again. -/
def IsTypeName (type : String) : Prop :=
  type = "reset$$" ∨
    ∃ c more, type.toList = c :: more ∧ c.isAlpha = true ∧ ∀ d ∈ more, isNamePart d = true

/-- The parameter can be written. -/
def Extra.Writable : Extra → Prop
  | .number _ => True
  | .expression text => IsText text.toList

/-- The length can be written. -/
def Size.Writable : Size → Prop
  | .unbounded => True
  | .expression text => IsText text.toList ∧ text ≠ "" ∧ text ≠ "_"

/-- The declaration can be written. -/
structure FieldDecl.Writable (d : FieldDecl) : Prop where
  type : IsTypeName d.type
  extra : ∀ extra, d.extra = some extra → extra.Writable
  size : ∀ size, d.size = some size → size.Writable
  name : ∀ name, d.name = some name → Scanner.IsName name.toList

/-- The declaration can be written. -/
def Declaration.Writable : Declaration → Prop
  | .field d => d.Writable
  | .opening name size =>
    (∀ n, name = some n → Scanner.IsName n.toList) ∧ ∀ z, size = some z → z.Writable
  | .closing => True

/-! ## How it is written -/

/-- How a declaration is set: the gaps behind its lexemes, and the separators on either side of what
stands in the parentheses of a parameter and in brackets. -/
structure Setting where
  behindOrder : List Space := []
  behindType : List Space := []
  behindExtra : List Space := []
  behindSize : List Space := []
  behindName : List Space := []
  extraFront : List Char := []
  extraBack : List Char := []
  sizeFront : List Char := []
  sizeBack : List Char := []

/-- A part of a declaration that need not be there, with the gap behind it. -/
def renderPart {α : Type} (render : α → List Char) (behind : List Space) : Option α → List Char
  | none => []
  | some x => render x ++ Space.renderAll behind

/-- The mark of a byte order. -/
def orderMark : ByteOrder → List Char
  | .little => ['<']
  | .big => ['>']

namespace Setting

variable (s : Setting)

/-- A parameter with its colon. -/
def renderExtra : Extra → List Char
  | .number n => ':' :: (toString n.toNat).toList
  | .expression text => ':' :: '(' :: (s.extraFront ++ (text.toList ++ (s.extraBack ++ [')'])))

/-- A length with its brackets. -/
def renderSize : Size → List Char
  | .unbounded => '[' :: (s.sizeFront ++ '_' :: (s.sizeBack ++ [']']))
  | .expression text => '[' :: (s.sizeFront ++ (text.toList ++ (s.sizeBack ++ [']'])))

/-- A declaration. -/
def render : Declaration → List Char
  | .field d =>
    renderPart orderMark s.behindOrder d.order ++
      (d.type.toList ++ (Space.renderAll s.behindType ++
        (renderPart s.renderExtra s.behindExtra d.extra ++
          (renderPart s.renderSize s.behindSize d.size ++
            (renderPart String.toList s.behindName d.name ++ [';'])))))
  | .opening name size =>
    renderPart String.toList s.behindName name ++
      (renderPart s.renderSize s.behindSize size ++ ['\x7b'])
  | .closing => ['\x7d']

/-- All gaps are what they say, and there are only separators inside parentheses and brackets. -/
structure Fits : Prop where
  behindOrder : Space.AllFit s.behindOrder
  behindType : Space.AllFit s.behindType
  behindExtra : Space.AllFit s.behindExtra
  behindSize : Space.AllFit s.behindSize
  behindName : Space.AllFit s.behindName
  extraFront : ∀ c ∈ s.extraFront, Text.isSeparator c = true
  extraBack : ∀ c ∈ s.extraBack, Text.isSeparator c = true
  sizeFront : ∀ c ∈ s.sizeFront, Text.isSeparator c = true
  sizeBack : ∀ c ∈ s.sizeBack, Text.isSeparator c = true

/-- There is a gap between two words in a row: between the name of a type, or a number behind it, and
the name of a field. -/
def Apart : Declaration → Prop
  | .field ⟨_, _, none, none, some _⟩ => s.behindType ≠ []
  | .field ⟨_, _, some (.number _), none, some _⟩ => s.behindExtra ≠ []
  | _ => True

end Setting

/-- A declaration with the gap in front of it and the way it is set. -/
structure Written where
  before : List Space
  setting : Setting
  declaration : Declaration

/-- The declaration can be written so. -/
structure Written.Fits (w : Written) : Prop where
  before : Space.AllFit w.before
  setting : w.setting.Fits
  apart : w.setting.Apart w.declaration
  writable : w.declaration.Writable

/-- A script with a gap at its end. -/
def renderScript : List Written → (last : List Space) → List Char
  | [], last => Space.renderAll last
  | w :: rest, last =>
    Space.renderAll w.before ++ (w.setting.render w.declaration ++ renderScript rest last)

/-! ## Texts -/

section

variable {depth : Nat} {c : Char} {text front back : List Char}

/-- Characters other than parentheses do not matter. -/
theorem balanced_append (hback : ∀ c ∈ back, c ≠ '(' ∧ c ≠ ')') :
    Balanced depth text → Balanced depth (text ++ back) := by
  induction text generalizing depth with
  | nil =>
    intro h
    induction back with
    | nil => exact h
    | cons c back ih =>
      obtain ⟨hopen, hclose⟩ := hback c List.mem_cons_self
      rw [List.nil_append, Balanced, if_neg hopen, if_neg hclose]
      exact ih fun d hd => hback d (List.mem_cons_of_mem c hd)
  | cons c text ih =>
    intro h
    rw [List.cons_append]
    unfold Balanced at h ⊢
    split at h
    · rename_i hopen
      rw [if_pos hopen]
      exact ih h
    · rename_i hopen
      rw [if_neg hopen]
      split at h
      · rename_i hclose
        rw [if_pos hclose]
        exact ⟨h.1, ih h.2⟩
      · rename_i hclose
        rw [if_neg hclose]
        exact ih h

theorem balanced_of_append (hfront : ∀ c ∈ front, c ≠ '(' ∧ c ≠ ')') (h : Balanced depth text) :
    Balanced depth (front ++ text) := by
  induction front with
  | nil => exact h
  | cons c front ih =>
    obtain ⟨hopen, hclose⟩ := hfront c List.mem_cons_self
    rw [List.cons_append, Balanced, if_neg hopen, if_neg hclose]
    exact ih fun d hd => hfront d (List.mem_cons_of_mem c hd)

/-- A balanced text is skipped whole. -/
theorem skipBalanced_of_balanced (h : Balanced depth text)
    (hplain : ∀ c ∈ text, endsText c = false) (opened : Cursor) (p : Position) (rest : List Char) :
    ∃ opened', skipBalanced depth opened p (text ++ rest) =
      skipBalanced 0 opened' (p.after text) rest := by
  induction text generalizing depth opened p with
  | nil =>
    rw [Balanced] at h
    subst h
    exact ⟨opened, rfl⟩
  | cons c text ih =>
    have hc := hplain c List.mem_cons_self
    have htext := fun d hd => hplain d (List.mem_cons_of_mem c hd)
    rw [List.cons_append, skipBalanced, Position.after_cons]
    unfold Balanced at h
    split at h
    · rename_i hopen
      rw [if_pos hopen]
      exact ih h htext _ _
    · rename_i hopen
      rw [if_neg hopen]
      split at h
      · rename_i hclose
        rw [if_pos hclose, if_neg (by omega)]
        exact ih h.2 htext _ _
      · rename_i hclose
        rw [if_neg hclose, if_neg (by rw [hc]; exact Bool.false_ne_true)]
        exact ih h htext _ _

end

/-! ## Trimming -/

section

variable {c : Char} {text front back : List Char}

theorem dropWhile_blanks (h : ∀ c ∈ front, Text.isBlank c = true) :
    (front ++ text).dropWhile Text.isBlank = text.dropWhile Text.isBlank :=
  List.dropWhile_append_of_pos h

/-- Blanks at the ends do not matter. -/
theorem trim_append (hfront : ∀ c ∈ front, Text.isBlank c = true)
    (hback : ∀ c ∈ back, Text.isBlank c = true) :
    Text.trim (front ++ (text ++ back)) = Text.trim text := by
  unfold Text.trim
  rw [dropWhile_blanks hfront, List.dropWhile_append]
  split
  · rename_i hblank
    rw [List.isEmpty_iff.mp hblank]
    have hall : back.dropWhile Text.isBlank = [] := List.dropWhile_eq_nil_iff.mpr hback
    rw [hall]
  · rw [List.reverse_append]
    have hreverse : ∀ c ∈ back.reverse, Text.isBlank c = true := by
      intro c hc
      exact hback c (List.mem_reverse.mp hc)
    rw [dropWhile_blanks hreverse]

/-- A text that is trimmed begins with no blank. -/
theorem not_isBlank_head (h : Text.trim text = text) : ∀ c ∈ text.head?, Text.isBlank c = false := by
  intro c hc
  unfold Text.trim at h
  have hlength : (text.dropWhile Text.isBlank).length = text.length := by
    have hle := (List.dropWhile_suffix Text.isBlank (l := text)).length_le
    have hle' := (List.dropWhile_suffix Text.isBlank
      (l := (text.dropWhile Text.isBlank).reverse)).length_le
    have heq := congrArg List.length h
    rw [List.length_reverse] at heq hle'
    omega
  cases text with
  | nil => cases hc
  | cons d text =>
    cases hc
    rw [Bool.eq_false_iff]
    intro hblank
    rw [List.dropWhile_cons_of_pos hblank] at hlength
    have hle := (List.dropWhile_suffix Text.isBlank (l := text)).length_le
    rw [List.length_cons] at hlength
    omega

/-- A text that is trimmed ends with no blank. -/
theorem not_isBlank_last (h : Text.trim text = text) :
    ∀ c ∈ text.getLast?, Text.isBlank c = false := by
  intro c hc
  rw [← h, Text.trim, List.getLast?_reverse] at hc
  have hnot := List.head?_dropWhile_not Text.isBlank (text.dropWhile Text.isBlank).reverse
  rw [hc] at hnot
  simpa using hnot

end

end RecordLayout.Script
