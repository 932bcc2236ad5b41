import RecordLayout.Proofs.Outcome
import RecordLayout.Script.Scanner

/-!
# What scanners read

Whether a scanner answers depends on the characters in front alone. The place in the text and the
record of failed attempts are carried along and decide nothing, so both are left open here: a
scanner reads a value from some characters and leaves the rest, or it refuses them.
-/

namespace RecordLayout.Script

namespace Scanner

variable {α β : Type} {s t : Scanner α} {f : α → Scanner β} {x : α} {y : β} {p : Char → Bool}
  {input mid rest : List Char} {c : Char}

/-- In front of these characters the scanner answers with a value and leaves the rest. -/
def Reads (s : Scanner α) (input : List Char) (x : α) (rest : List Char) : Prop :=
  ∀ place attempts, ∃ place' attempts',
    s ⟨place, input⟩ attempts = (some (x, ⟨place', rest⟩), attempts')

/-- The scanner refuses these characters. -/
def Refuses (s : Scanner α) (input : List Char) : Prop :=
  ∀ place attempts, ∃ attempts', s ⟨place, input⟩ attempts = (none, attempts')

/-! ## Combinations -/

theorem reads_pure (x : α) (input : List Char) : Reads (pure x) input x input :=
  fun place attempts => ⟨place, attempts, rfl⟩

theorem bind_of_some {place : Cursor} {attempts attempts' : Attempts} {found : α × Cursor}
    (h : s place attempts = (some found, attempts')) :
    (s >>= f) place attempts = f found.1 found.2 attempts' := by
  simp only [bind, StateT.bind, OptionT.bind, OptionT.mk, h]

theorem bind_of_none {place : Cursor} {attempts attempts' : Attempts}
    (h : s place attempts = (none, attempts')) :
    (s >>= f) place attempts = (none, attempts') := by
  simp only [bind, StateT.bind, OptionT.bind, OptionT.mk, h]
  rfl

theorem orElse_of_some {place : Cursor} {attempts attempts' : Attempts} {found : α × Cursor}
    (h : s place attempts = (some found, attempts')) :
    (s <|> t) place attempts = (some found, attempts') := by
  simp only [HOrElse.hOrElse, OrElse.orElse, Alternative.orElse, StateT.orElse, OptionT.orElse,
    OptionT.mk, bind, StateT.bind, h]
  rfl

/-- The second alternative is tried at the same place. -/
theorem orElse_of_none {place : Cursor} {attempts attempts' : Attempts}
    (h : s place attempts = (none, attempts')) :
    (s <|> t) place attempts = t place attempts' := by
  simp only [HOrElse.hOrElse, OrElse.orElse, Alternative.orElse, StateT.orElse, OptionT.orElse,
    OptionT.mk, bind, StateT.bind, h]

theorem Reads.bind (h : Reads s input x mid) (h' : Reads (f x) mid y rest) :
    Reads (s >>= f) input y rest := by
  intro place attempts
  obtain ⟨place₁, attempts₁, h⟩ := h place attempts
  obtain ⟨place₂, attempts₂, h'⟩ := h' place₁ attempts₁
  exact ⟨place₂, attempts₂, (bind_of_some h).trans h'⟩

/-- A scanner behind one that only moves on. -/
theorem Reads.seq {skip : Scanner Unit} {next : Scanner β} (h : Reads skip input () mid)
    (h' : Reads next mid y rest) : Reads (do skip; next) input y rest :=
  h.bind h'

/-- The first of two scanners in a row refuses. -/
theorem Refuses.bind (h : Refuses s input) : Refuses (s >>= f) input := by
  intro place attempts
  obtain ⟨attempts₁, h⟩ := h place attempts
  exact ⟨attempts₁, bind_of_none h⟩

/-- The second of two scanners in a row refuses. -/
theorem Reads.bind_refuses (h : Reads s input x mid) (h' : Refuses (f x) mid) :
    Refuses (s >>= f) input := by
  intro place attempts
  obtain ⟨place₁, attempts₁, h⟩ := h place attempts
  obtain ⟨attempts₂, h'⟩ := h' place₁ attempts₁
  exact ⟨attempts₂, (bind_of_some h).trans h'⟩

/-- A value that is read and then turned into another. -/
theorem Reads.bind_pure (h : Reads s input x rest) (g : α → β) :
    Reads (s >>= fun a => pure (g a)) input (g x) rest :=
  h.bind (reads_pure (g x) rest)

theorem Reads.orElse (h : Reads s input x rest) : Reads (s <|> t) input x rest := by
  intro place attempts
  obtain ⟨place₁, attempts₁, h⟩ := h place attempts
  exact ⟨place₁, attempts₁, orElse_of_some h⟩

theorem Refuses.orElse_reads (h : Refuses s input) (h' : Reads t input x rest) :
    Reads (s <|> t) input x rest := by
  intro place attempts
  obtain ⟨attempts₁, h⟩ := h place attempts
  obtain ⟨place₂, attempts₂, h'⟩ := h' place attempts₁
  exact ⟨place₂, attempts₂, (orElse_of_none h).trans h'⟩

theorem Refuses.orElse (h : Refuses s input) (h' : Refuses t input) :
    Refuses (s <|> t) input := by
  intro place attempts
  obtain ⟨attempts₁, h⟩ := h place attempts
  obtain ⟨attempts₂, h'⟩ := h' place attempts₁
  exact ⟨attempts₂, (orElse_of_none h).trans h'⟩

theorem Reads.named (production : Production) (h : Reads s input x rest) :
    Reads (named production s) input x rest := by
  intro place attempts
  obtain ⟨place₁, attempts₁, h⟩ := h place attempts
  exact ⟨place₁, attempts₁, by simp only [Scanner.named, h]⟩

theorem Refuses.named (production : Production) (h : Refuses s input) :
    Refuses (named production s) input := by
  intro place attempts
  obtain ⟨attempts₁, h⟩ := h place attempts
  exact ⟨attempts₁.record production place (attempts.countAt place),
    by simp only [Scanner.named, h]⟩

/-! ## Characters -/

theorem reads_char (h : p c = true) (rest : List Char) : Reads (char p) (c :: rest) c rest := by
  intro place attempts
  refine ⟨place.next c, attempts, ?_⟩
  simp only [char, h, if_true]
  rfl

theorem refuses_char (h : ∀ c ∈ input.head?, p c = false) : Refuses (char p) input := by
  intro place attempts
  refine ⟨attempts, ?_⟩
  cases input with
  | nil => rfl
  | cons c rest =>
    simp only [char, h c rfl, Bool.false_eq_true, if_false]
    rfl

theorem reads_word (word' rest : List Char) : Reads (word word') (word' ++ rest) () rest := by
  induction word' with
  | nil => exact reads_pure () rest
  | cons c word' ih => exact (reads_char (p := (· == c)) (beq_self_eq_true c) _).bind ih

/-- A word of one character. -/
theorem reads_symbol (c : Char) (rest : List Char) : Reads (word [c]) (c :: rest) () rest :=
  reads_word [c] rest

/-- A word is refused if its first character does not come next. -/
theorem refuses_word (c : Char) (more : List Char) (h : ∀ d ∈ input.head?, d ≠ c) :
    Refuses (word (c :: more)) input :=
  Refuses.bind (refuses_char fun d hd => beq_eq_false_iff_ne.mpr (h d hd))

/-- A word is refused if its second character does not come behind the first. -/
theorem refuses_word_second (c d : Char) (more : List Char) (h : ∀ e ∈ input.head?, e ≠ d) :
    Refuses (word (c :: d :: more)) (c :: input) :=
  (reads_char (p := (· == c)) (beq_self_eq_true c) input).bind_refuses (refuses_word d more h)

/-- As many characters of the class as there are. -/
theorem reads_span {found : List Char} (h : ∀ c ∈ found, p c = true)
    (hrest : ∀ c ∈ rest.head?, p c = false) : Reads (span p) (found ++ rest) found rest := by
  intro place attempts
  have hstop : rest.takeWhile p = [] ∧ rest.dropWhile p = rest := by
    cases rest with
    | nil => exact ⟨rfl, rfl⟩
    | cons c rest =>
      have hc : ¬ p c = true := by simp [hrest c rfl]
      exact ⟨List.takeWhile_cons_of_neg hc, List.dropWhile_cons_of_neg hc⟩
  have htake : (found ++ rest).takeWhile p = found := by
    rw [List.takeWhile_append_of_pos h, hstop.1, List.append_nil]
  have hdrop : (found ++ rest).dropWhile p = rest := by
    rw [List.dropWhile_append_of_pos h, hstop.2]
  refine ⟨place.after found, attempts, ?_⟩
  simp only [span, htake, hdrop]
  rfl

theorem reads_span1 {found : List Char} (hc : p c = true) (h : ∀ c ∈ found, p c = true)
    (hrest : ∀ c ∈ rest.head?, p c = false) :
    Reads (span1 p) (c :: found ++ rest) (c :: found) rest :=
  (reads_char hc _).bind ((reads_span h hrest).bind_pure (c :: ·))

theorem refuses_span1 (h : ∀ c ∈ input.head?, p c = false) : Refuses (span1 p) input :=
  Refuses.bind (refuses_char h)

theorem reads_notNext (h : ∀ c ∈ input.head?, p c = false) :
    Reads (notNext p) input () input := by
  intro place attempts
  refine ⟨place, attempts, ?_⟩
  cases input with
  | nil => rfl
  | cons c rest =>
    simp only [notNext, h c rfl, Bool.false_eq_true, if_false]
    rfl

theorem reads_atEnd : Reads atEnd [] () [] := fun place attempts => ⟨place, attempts, rfl⟩

theorem refuses_atEnd (c : Char) (rest : List Char) : Refuses atEnd (c :: rest) :=
  fun _ attempts => ⟨attempts, rfl⟩

/-- A name is as long as there are characters of names. -/
theorem reads_name {more : List Char} (hc : isNameStart c = true)
    (h : ∀ c ∈ more, isNamePart c = true) (hrest : ∀ c ∈ rest.head?, isNamePart c = false) :
    Reads name (c :: more ++ rest) (String.ofList (c :: more)) rest :=
  (reads_char hc _).bind ((reads_span h hrest).bind_pure fun more => String.ofList (c :: more))

theorem refuses_name (h : ∀ c ∈ input.head?, isNameStart c = false) : Refuses name input :=
  Refuses.bind (refuses_char h)

/-! ## Gaps -/

/-- The characters do not begin with a separator or a comment. -/
def Solid (input : List Char) : Prop := ∀ place, skipGap .blank place input = ⟨place, input⟩

theorem solid_nil : Solid [] := fun _ => rfl

/-- What begins neither with a separator nor with a comment is solid. -/
theorem solid_cons (hseparator : Text.isSeparator c = false)
    (hslash : c = '/' → ∀ d ∈ rest.head?, d ≠ '/' ∧ d ≠ '*') : Solid (c :: rest) := by
  intro place
  unfold skipGap
  split
  · rename_i heq
    cases heq
    exact absurd rfl (hslash rfl '/' rfl).1
  · rename_i heq
    cases heq
    exact absurd rfl (hslash rfl '*' rfl).2
  · rename_i heq
    cases heq
    simp [hseparator]
  all_goals rename_i heq _; cases heq

/-- A gap of separators ends where something else begins. -/
theorem reads_gap {blanks : List Char} (h : ∀ c ∈ blanks, Text.isSeparator c = true)
    (hrest : Solid rest) : Reads gap (blanks ++ rest) () rest := by
  have hskip : ∀ place, ∃ place', skipGap .blank place (blanks ++ rest) = ⟨place', rest⟩ := by
    induction blanks with
    | nil => exact fun place => ⟨place, hrest place⟩
    | cons c blanks ih =>
      intro place
      obtain ⟨place', hplace⟩ :=
        ih (fun d hd => h d (List.mem_cons_of_mem c hd)) (place.next c)
      refine ⟨place', ?_⟩
      have hc := h c List.mem_cons_self
      have hslash : c ≠ '/' := by
        rintro rfl
        revert hc
        decide
      rw [List.cons_append]
      unfold skipGap
      split
      · rename_i heq
        exact absurd (List.cons.inj heq).1 hslash
      · rename_i heq
        exact absurd (List.cons.inj heq).1 hslash
      · rename_i heq
        obtain ⟨rfl, rfl⟩ := List.cons.inj heq
        rw [if_pos hc]
        exact hplace
      all_goals rename_i heq _; cases heq
  intro place attempts
  obtain ⟨place', hplace⟩ := hskip place
  refine ⟨place', attempts, ?_⟩
  simp only [gap, hplace]
  rfl

/-! ## Repetitions -/

/-- A scanner reads values one behind the other, each from a character at least, until it refuses. -/
inductive ReadsEach (s : Scanner α) : List Char → List α → List Char → Prop
  | nil {rest : List Char} (last : Refuses s rest) : ReadsEach s rest [] rest
  | cons {input mid rest : List Char} {x : α} {xs : List α} (first : Reads s input x mid)
      (shorter : mid.length < input.length) (later : ReadsEach s mid xs rest) :
      ReadsEach s input (x :: xs) rest

variable {xs : List α}

/-- Values in a row are read, by induction over them; the limit is never reached. -/
theorem ReadsEach.repeatUpTo (h : ReadsEach s input xs rest) {limit : Nat}
    (hlimit : input.length < limit) : Reads (repeatUpTo s limit) input xs rest := by
  induction h generalizing limit with
  | nil last =>
    obtain ⟨limit, rfl⟩ : ∃ n, limit = n + 1 := ⟨limit - 1, by omega⟩
    exact Refuses.orElse_reads (Refuses.bind last) (reads_pure [] _)
  | @cons input mid rest x xs first shorter later ih =>
    obtain ⟨limit, rfl⟩ : ∃ n, limit = n + 1 := ⟨limit - 1, by omega⟩
    exact (first.bind ((ih (by omega)).bind_pure (x :: ·))).orElse

/-- An operation that begins with a look at the place. -/
theorem reads_get {f : Cursor → Scanner β} (h : ∀ place, Reads (f ⟨place, input⟩) input y rest) :
    Reads (get >>= f) input y rest := fun place attempts => h place place attempts

theorem refuses_get {f : Cursor → Scanner β} (h : ∀ place, Refuses (f ⟨place, input⟩) input) :
    Refuses (get >>= f) input := fun place attempts => h place place attempts

theorem ReadsEach.many (h : ReadsEach s input xs rest) : Reads (many s) input xs rest :=
  reads_get fun _ => h.repeatUpTo (Nat.lt_succ_self _)

/-- Values with gaps between. -/
theorem ReadsEach.manyApart (h : Reads s input x mid)
    (h' : ReadsEach (do gap; s) mid xs rest) : Reads (manyApart s) input (x :: xs) rest :=
  (h.bind (h'.many.bind_pure (x :: ·))).orElse

theorem Refuses.manyApart (h : Refuses s input) : Reads (manyApart s) input [] input :=
  Refuses.orElse_reads (Refuses.bind h) (reads_pure [] input)

end Scanner

end RecordLayout.Script
