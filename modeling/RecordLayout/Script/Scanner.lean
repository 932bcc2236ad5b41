import RecordLayout.Script.Production
import RecordLayout.Text.Blank
import RecordLayout.Text.Position

/-!
# Scanning

A scanner reads a value from the front of a text or refuses it. An alternative that refuses leaves
the text as it was, so alternatives are tried in order and the first that answers is taken.

A refused text is reported at the furthest place where a production failed, with the productions
that failed there. The scanner keeps that report (`Attempts`) through successes and failures alike.
A failing production takes the place of the failures inside its own body that lie at its own start,
except when there is exactly one, which says more than the production itself.
-/

namespace RecordLayout.Script

/-- A place in a text together with what follows it. -/
structure Cursor where
  position : Position
  rest : List Char

namespace Cursor

/-- The front of a text. -/
def ofString (text : String) : Cursor := ⟨.start, text.toList⟩

/-- The characters between a cursor and a later one of the same text. -/
def upTo (a b : Cursor) : List Char := a.rest.take (a.rest.length - b.rest.length)

end Cursor

/-- The furthest place at which a production failed so far, and the productions that failed there,
the latest first. -/
structure Attempts where
  position : Position
  failed : List Production

namespace Attempts

/-- Nothing was tried yet. -/
def none : Attempts := ⟨.start, []⟩

/-- How many productions are on record at a place. -/
def countAt (a : Attempts) (p : Position) : Nat :=
  if a.position.offset = p.offset then a.failed.length else 0

/-- The record after `production` failed at `p`, where `before` productions were on record when it
was tried. -/
def record (a : Attempts) (production : Production) (p : Position) (before : Nat) : Attempts :=
  if a.countAt p - before = 1 then a
  else if p.offset = a.position.offset then
    ⟨a.position, production :: a.failed.drop (a.failed.length - before)⟩
  else if a.position.offset < p.offset then ⟨p, [production]⟩
  else a

end Attempts

/-- Reads a value from the front of a text or refuses the text. -/
abbrev Scanner := StateT Cursor (OptionT (StateM Attempts))

namespace Scanner

/-- The answer of a scanner: the value with the cursor behind it, or the attempts that failed. -/
def answer {α : Type} (s : Scanner α) (c : Cursor) : Except Attempts (α × Cursor) :=
  match s c Attempts.none with
  | (some found, _) => .ok found
  | (none, attempts) => .error attempts

/-- The next character, if it is in the class. -/
def char (p : Char → Bool) : Scanner Char := fun c =>
  match c.rest with
  | x :: rest => if p x then pure (x, ⟨c.position.next x, rest⟩) else failure
  | [] => failure

/-- The characters of the class that come next, as many as there are. -/
def span (p : Char → Bool) : Scanner (List Char) := fun c =>
  let found := c.rest.takeWhile p
  pure (found, ⟨c.position.after found, c.rest.dropWhile p⟩)

/-- Exactly these characters. -/
def word : List Char → Scanner Unit
  | [] => pure ()
  | x :: rest => do
    let _ ← char (· == x)
    word rest

/-- The next character, if there is one, is not in the class. -/
def notNext (p : Char → Bool) : Scanner Unit := fun c =>
  match c.rest with
  | x :: _ => if p x then failure else pure ((), c)
  | [] => pure ((), c)

/-- The next character is in the class; it is not taken. -/
def next (p : Char → Bool) : Scanner Unit := fun c =>
  match c.rest with
  | x :: _ => if p x then pure ((), c) else failure
  | [] => failure

/-- Nothing follows. -/
def atEnd : Scanner Unit := fun c =>
  match c.rest with
  | [] => pure ((), c)
  | _ :: _ => failure

/-- A scanner whose failures are on record under the name of a production. -/
def named {α : Type} (production : Production) (body : Scanner α) : Scanner α := fun c attempts =>
  let before := attempts.countAt c.position
  match body c attempts with
  | (some found, after) => (some found, after)
  | (none, after) => (none, after.record production c.position before)

/-- A scanner that may refuse. -/
def maybe {α : Type} (s : Scanner α) : Scanner (Option α) :=
  (some <$> s) <|> pure none

/-- As many times as the scanner answers, but at most `limit` times. -/
def repeatUpTo {α : Type} (s : Scanner α) : (limit : Nat) → Scanner (List α)
  | 0 => pure []
  | limit + 1 =>
    (do
      let x ← s
      let xs ← repeatUpTo s limit
      pure (x :: xs)) <|> pure []

/-- As many times as the scanner answers. It takes a character each time, so it answers no more
often than there are characters, and one more attempt shows that it refuses. -/
def many {α : Type} (s : Scanner α) : Scanner (List α) := do
  let c ← get
  repeatUpTo s (c.rest.length + 1)

end Scanner

/-! ## Gaps -/

/-- Where a gap stands: outside comments, in a comment that ends with its line, or in one that has to
be closed and without its end is not a comment at all. -/
inductive Gap where
  | blank
  | line
  | block (opened : Cursor)

/-- The end of the separators and comments at the front of a text. -/
def skipGap : Gap → Position → List Char → Cursor
  | .blank, p, '/' :: '/' :: rest => skipGap .line ((p.next '/').next '/') rest
  | .blank, p, '/' :: '*' :: rest =>
    skipGap (.block ⟨p, '/' :: '*' :: rest⟩) ((p.next '/').next '*') rest
  | .blank, p, c :: rest =>
    if Text.isSeparator c then skipGap .blank (p.next c) rest else ⟨p, c :: rest⟩
  | .line, p, c :: rest => skipGap (if c = '\n' then .blank else .line) (p.next c) rest
  | .block _, p, '*' :: '/' :: rest => skipGap .blank ((p.next '*').next '/') rest
  | .block opened, p, c :: rest => skipGap (.block opened) (p.next c) rest
  | .block opened, _, [] => opened
  | _, p, [] => ⟨p, []⟩

namespace Scanner

/-- Any separators and comments. -/
def gap : Scanner Unit := fun c => pure ((), skipGap .blank c.position c.rest)

/-- As many times as the scanner answers, with gaps between. -/
def manyApart {α : Type} (s : Scanner α) : Scanner (List α) :=
  (do
    let x ← s
    let xs ← many (do gap; s)
    pure (x :: xs)) <|> pure []

end Scanner

/-! ## Words and balanced text -/

/-- A letter or an underscore, which may begin a name. -/
def isNameStart (c : Char) : Bool := c.isAlpha || c == '_'

/-- A letter, a digit or an underscore, which may continue a name. -/
def isNamePart (c : Char) : Bool := c.isAlphanum || c == '_'

/-- A character that no expression text holds outside parentheses of its own. -/
def endsText (c : Char) : Bool :=
  c == ';' || c == '\x7b' || c == '\x7d' || c == '[' || c == ']'

/-- The end of the longest text at the front whose parentheses are balanced. With `depth` groups
open, `opened` is where the outermost of them begins: a group that never closes is not part of the
text. -/
def skipBalanced (depth : Nat) (opened : Cursor) (p : Position) : List Char → Cursor
  | [] => if depth = 0 then ⟨p, []⟩ else opened
  | c :: rest =>
    if c = '(' then
      skipBalanced (depth + 1) (if depth = 0 then ⟨p, c :: rest⟩ else opened) (p.next c) rest
    else if c = ')' then
      if depth = 0 then ⟨p, c :: rest⟩ else skipBalanced (depth - 1) opened (p.next c) rest
    else if endsText c then
      if depth = 0 then ⟨p, c :: rest⟩ else opened
    else skipBalanced depth opened (p.next c) rest

namespace Scanner

/-- A name. -/
def name : Scanner String := do
  let first ← char isNameStart
  let more ← span isNamePart
  pure (String.ofList (first :: more))

/-- One or more characters of a class. -/
def span1 (p : Char → Bool) : Scanner (List Char) := do
  let first ← char p
  let more ← span p
  pure (first :: more)

/-- The longest text with balanced parentheses, possibly empty. -/
def balanced : Scanner (List Char) := fun c =>
  let e := skipBalanced 0 c c.position c.rest
  pure (c.upTo e, e)

/-- The longest text with balanced parentheses, not empty. -/
def balanced1 : Scanner (List Char) := do
  let text ← balanced
  if text.isEmpty then failure else pure text

end Scanner

end RecordLayout.Script
