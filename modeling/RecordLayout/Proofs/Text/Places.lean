import Mathlib
import RecordLayout.Text.Position

/-!
# Places of a text

A place lies between what stands before it in a text and what stands behind it. Going over the text
character by character counts what an editor would count: the bytes before the place, the lines that
have ended there, and the characters of the line that has not.
-/

namespace RecordLayout.Position

/-- The place behind these characters from the front of a text. -/
def behind (before : List Char) : Position where
  offset := String.utf8Len before
  line := 1 + before.count '\n'
  column := 1 + (before.reverse.takeWhile (· ≠ '\n')).length

/-- Going over a text counts its bytes, its lines and the characters of its last line. -/
theorem start_after (before : List Char) : start.after before = behind before := by
  induction before using List.reverseRecOn with
  | nil => rfl
  | append_singleton before c ih =>
    rw [after_append, ih, after_cons, after_nil, next]
    split
    · rename_i hc
      subst hc
      simp [behind, Nat.add_assoc]
    · rename_i hc
      simp [behind, hc, Nat.add_assoc]

/-- The place lies in the text. -/
def Within (text : List Char) (p : Position) : Prop :=
  ∃ before rest, text = before ++ rest ∧ p = behind before

/-- A place in a text is at a boundary of its characters. -/
theorem Within.isValid {source : String} {p : Position} (h : p.Within source.toList) :
    String.Pos.Raw.IsValid source ⟨p.offset⟩ := by
  obtain ⟨before, rest, hsource, rfl⟩ := h
  refine String.Pos.Raw.isValid_iff_exists_append.mpr
    ⟨String.ofList before, String.ofList rest, ?_, ?_⟩
  · rw [← String.ofList_append, ← hsource, String.ofList_toList]
  · rw [String.rawEndPos, String.utf8ByteSize_ofList, behind]

/-- A place in a text is not behind its end. -/
theorem Within.offset_le {source : String} {p : Position} (h : p.Within source.toList) :
    p.offset ≤ source.utf8ByteSize :=
  h.isValid.le_rawEndPos

end RecordLayout.Position
