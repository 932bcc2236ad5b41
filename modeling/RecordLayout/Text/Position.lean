/-!
# Places in a script

A place is a byte offset together with the line and the column an editor would show for it. Lines
and columns count from one, columns count characters, and only a line feed starts a new line, so a
carriage return before it is an ordinary character of the line it ends.
-/

namespace RecordLayout

/-- A place in a script. -/
structure Position where
  /-- Bytes before the place, in UTF-8. -/
  offset : Nat
  line : Nat
  column : Nat
  deriving DecidableEq, Repr, Inhabited

namespace Position

/-- The place before the first character. -/
def start : Position := ⟨0, 1, 1⟩

/-- The place after one more character. -/
def next (p : Position) (c : Char) : Position :=
  if c = '\n' then ⟨p.offset + c.utf8Size, p.line + 1, 1⟩
  else ⟨p.offset + c.utf8Size, p.line, p.column + 1⟩

/-- The place after more characters. -/
def after (p : Position) (cs : List Char) : Position :=
  cs.foldl next p

@[simp] theorem after_nil (p : Position) : p.after [] = p := rfl

@[simp] theorem after_cons (p : Position) (c : Char) (cs : List Char) :
    p.after (c :: cs) = (p.next c).after cs := rfl

theorem after_append (p : Position) (cs ds : List Char) :
    p.after (cs ++ ds) = (p.after cs).after ds := by
  simp [after]

/-- How messages show a place: the line, a colon, the column. -/
def render (p : Position) : String :=
  toString p.line ++ ":" ++ toString p.column

end Position

end RecordLayout
