import RecordLayout.Proofs.Table.Block
import RecordLayout.Script.Error

/-!
# Halting

A compilation that keeps flat tables stops for more reasons than that the script is refused. It may
evaluate an operator that has no value, which is an error of a pass, and it may rely on an index, on
a difference of counts or on a part of a text that is not there, which is a fault, or on an operand
where there is none. Here are the operations that check what they rely on, and what it means that
such an operation agrees with one that can only refuse.
-/

namespace RecordLayout

/-- Why a checked compilation stops. -/
inductive Halted where
  | refused (e : Script.Error)
  | raised (e : Error)
  | fault (f : Fault)
  /-- A part of an expression stands where no such part may stand. -/
  | misplaced

namespace Halted

/-- The kinds of errors that a compilation could report. -/
inductive Kind where
  /-- The script is malformed. -/
  | syntactic
  /-- A name in an expression cannot be resolved. -/
  | reference
  /-- An error of a pass. -/
  | ofPass (kind : ErrorKind)
  deriving DecidableEq, Repr

/-- The kind of the reported error; anything relied upon that is not so reports none. -/
def kind : Halted → Option Kind
  | refused e => some (if e.cause.isReference then .reference else .syntactic)
  | raised e => some (.ofPass e.kind)
  | fault _ | misplaced => none

end Halted

/-- A result of a checked compilation. -/
abbrev Halting := Except Halted

/-- Stops because the script is refused at a place. -/
def refuse {α : Type} (cause : Script.Cause) (position : Position) : Halting α :=
  .error (.refused ⟨cause, position⟩)

theorem ok_bind {α β : Type} (x : α) (f : α → Halting β) : (Except.ok x >>= f) = f x := rfl

/-! ## What is relied on -/

/-- The entry of a table. -/
def entryAt {α : Type} (table : List α) (i : Nat) : Halting α := (lookUp table i).mapError .fault

theorem entryAt_eq_ok {α : Type} {table : List α} {i : Nat} {x : α} (h : table[i]? = some x) :
    entryAt table i = .ok x := by
  rw [entryAt, lookUp, h]
  rfl

/-- A count less another one that is not larger. -/
def less (n k : Nat) : Halting Nat :=
  if k ≤ n then .ok (n - k) else .error (.fault (.index k n))

theorem less_eq_ok {n k : Nat} (h : k ≤ n) : less n k = .ok (n - k) := if_pos h

/-- The number of the last entry of a table. -/
def lastNumber {α : Type} (table : List α) : Halting Nat := less table.length 1

theorem lastNumber_append {α : Type} (table : List α) (x : α) :
    lastNumber (table ++ [x]) = .ok table.length := by
  rw [lastNumber, List.length_append, List.length_singleton, less_eq_ok (Nat.le_add_left _ _),
    Nat.add_sub_cancel]

/-! ## Parts of texts -/

/-- What is behind so many bytes, if they end with a character. -/
def dropBytes : Nat → List Char → Option (List Char)
  | 0, cs => some cs
  | _ + 1, [] => none
  | n + 1, c :: cs => if c.utf8Size ≤ n + 1 then dropBytes (n + 1 - c.utf8Size) cs else none

/-- The characters of so many bytes, if they end with a character. -/
def takeBytes : Nat → List Char → Option (List Char)
  | 0, _ => some []
  | _ + 1, [] => none
  | n + 1, c :: cs =>
    if c.utf8Size ≤ n + 1 then (takeBytes (n + 1 - c.utf8Size) cs).map (c :: ·) else none

/-- The part of a text between two byte offsets. Both have to be boundaries of characters, the second
one not before the first. -/
def slice (text : String) (start stop : Nat) : Halting String :=
  if start ≤ stop then
    match (dropBytes start text.toList).bind (takeBytes (stop - start)) with
    | some part => .ok (String.ofList part)
    | none => .error (.fault (.index stop text.utf8ByteSize))
  else .error (.fault (.index start stop))

/-- Bytes are dropped up to a character, and none is cut. -/
theorem dropBytes_append (before rest : List Char) :
    dropBytes (String.utf8Len before) (before ++ rest) = some rest := by
  induction before with
  | nil => cases rest <;> rfl
  | cons c before ih =>
    have hpos := c.utf8Size_pos
    obtain ⟨n, hn⟩ : ∃ n, String.utf8Len (c :: before) = n + 1 :=
      ⟨String.utf8Len (c :: before) - 1, by rw [String.utf8Len_cons]; omega⟩
    have hsum : String.utf8Len before + c.utf8Size = n + 1 := by
      rw [← hn, String.utf8Len_cons]
    rw [hn, List.cons_append, dropBytes, if_pos (by omega), ← hsum, Nat.add_sub_cancel, ih]

/-- Bytes are taken up to a character, and none is cut. -/
theorem takeBytes_append (part rest : List Char) :
    takeBytes (String.utf8Len part) (part ++ rest) = some part := by
  induction part with
  | nil => cases rest <;> rfl
  | cons c part ih =>
    have hpos := c.utf8Size_pos
    obtain ⟨n, hn⟩ : ∃ n, String.utf8Len (c :: part) = n + 1 :=
      ⟨String.utf8Len (c :: part) - 1, by rw [String.utf8Len_cons]; omega⟩
    have hsum : String.utf8Len part + c.utf8Size = n + 1 := by
      rw [← hn, String.utf8Len_cons]
    rw [hn, List.cons_append, takeBytes, if_pos (by omega), ← hsum, Nat.add_sub_cancel, ih]
    rfl

/-- A part of a text that stands between two others. -/
theorem slice_eq_ok {text : String} (before part rest : List Char)
    (h : text.toList = before ++ (part ++ rest)) {start stop : Nat}
    (hstart : start = String.utf8Len before) (hstop : stop = start + String.utf8Len part) :
    slice text start stop = .ok (String.ofList part) := by
  subst hstart hstop
  rw [slice, if_pos (Nat.le_add_right _ _), h, dropBytes_append, Option.bind_some,
    Nat.add_sub_cancel_left, takeBytes_append]

/-! ## Agreement -/

/-- The checked operation does not find a fault, and no error of a pass arises: it is refused at the
place where the plain one is, for the same cause, and otherwise the results are related. -/
def Agrees {α β : Type} (position : Position) (R : α → β → Prop) :
    Except Script.Cause α → Halting β → Prop
  | .ok x, .ok y => R x y
  | .error cause, .error h => h = .refused ⟨cause, position⟩
  | _, _ => False

namespace Agrees

variable {α β γ δ : Type} {position : Position} {R : α → β → Prop} {S : γ → δ → Prop}

theorem pure {x : α} {y : β} (h : R x y) : Agrees position R (Pure.pure x) (Pure.pure y) := h

theorem refuse (cause : Script.Cause) :
    Agrees position R (.error cause) (RecordLayout.refuse cause position) := rfl

/-- Computations that agree step by step agree: the second takes the result that the first one has.
-/
theorem bind {m : Except Script.Cause α} {w : Halting β} {g : α → Except Script.Cause γ}
    {v : β → Halting δ} (hm : Agrees position R m w)
    (hg : ∀ x y, m = .ok x → R x y → Agrees position S (g x) (v y)) :
    Agrees position S (m >>= g) (w >>= v) := by
  cases m with
  | ok x =>
    cases w with
    | ok y => exact hg x y rfl hm
    | error h => exact hm.elim
  | error cause =>
    cases w with
    | ok y => exact hm.elim
    | error h => exact hm

/-- Results that agree by one relation agree by each weaker one. -/
theorem mono {R' : α → β → Prop} {m : Except Script.Cause α} {w : Halting β}
    (hm : Agrees position R m w) (h : ∀ x y, R x y → R' x y) : Agrees position R' m w := by
  cases m with
  | ok x =>
    cases w with
    | ok y => exact h x y hm
    | error h => exact hm.elim
  | error cause =>
    cases w with
    | ok y => exact hm.elim
    | error h => exact hm

end Agrees

end RecordLayout
