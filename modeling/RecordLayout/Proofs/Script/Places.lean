import RecordLayout.Proofs.Expr.Grammar
import RecordLayout.Proofs.Text.Places

/-!
# Places that scanners reach

A scanner that starts somewhere in a text goes on from there: where it answers, what it leaves stands
behind what it has read, and where it refuses, the failures on record stand at places that it has
come to. The rules say this of each way to put scanners together, along with a property of the values
that are read.
-/

namespace RecordLayout.Script

variable {origin : Cursor} {found rest : List Char} {p : Position} {x : Char}

namespace Cursor

/-- The second cursor stands behind characters that the first one has in front of it. -/
def Reaches (origin c : Cursor) : Prop :=
  ∃ between, origin.rest = between ++ c.rest ∧ c.position = origin.position.after between

theorem Reaches.refl (c : Cursor) : c.Reaches c := ⟨[], rfl, rfl⟩

/-- A cursor moves on over characters in front of it. -/
theorem Reaches.after (h : origin.Reaches ⟨p, found ++ rest⟩) :
    origin.Reaches ⟨p.after found, rest⟩ := by
  obtain ⟨between, hrest, hposition⟩ := h
  refine ⟨between ++ found, ?_, ?_⟩
  · rw [hrest, List.append_assoc]
  · rw [Position.after_append, ← hposition]

theorem Reaches.trans {a b c : Cursor} (h : a.Reaches b) (h' : b.Reaches c) : a.Reaches c := by
  obtain ⟨between, hrest, hposition⟩ := h
  obtain ⟨more, hrest', hposition'⟩ := h'
  refine ⟨between ++ more, ?_, ?_⟩
  · rw [hrest, hrest', List.append_assoc]
  · rw [hposition', hposition, Position.after_append]

theorem Reaches.next (h : origin.Reaches ⟨p, x :: rest⟩) : origin.Reaches ⟨p.next x, rest⟩ := by
  have hfound : origin.Reaches ⟨p, [x] ++ rest⟩ := h
  exact hfound.after

/-- What the first of two cursors has in front of it up to the second. -/
theorem upTo_eq {c : Cursor} {between : List Char} (h : origin.rest = between ++ c.rest) :
    origin.upTo c = between := by
  rw [upTo, h, List.length_append, Nat.add_sub_cancel, List.take_left]

theorem Reaches.upTo_append {c : Cursor} (h : origin.Reaches c) :
    origin.upTo c ++ c.rest = origin.rest := by
  obtain ⟨between, hrest, -⟩ := h
  rw [upTo_eq hrest, hrest]

/-- The place is one that the cursor comes to. -/
def Sees (origin : Cursor) (p : Position) : Prop := ∃ c, origin.Reaches c ∧ c.position = p

theorem Reaches.sees {c : Cursor} (h : origin.Reaches c) : origin.Sees c.position := ⟨c, h, rfl⟩

/-- From the front of a text, places of the text are seen. -/
theorem Sees.within {source : String} (h : (ofString source).Sees p) :
    p.Within source.toList := by
  obtain ⟨c, ⟨between, hrest, hposition⟩, rfl⟩ := h
  exact ⟨between, c.rest, hrest, hposition.trans (Position.start_after between)⟩

end Cursor

/-! ## Gaps, balanced text and names -/

/-- The place where a comment opened is behind the origin. -/
def Gap.OpenedIn (origin : Cursor) : Gap → Prop
  | .blank | .line => True
  | .block opened => origin.Reaches opened

/-- Skipping a gap moves on, or goes back to where a comment was opened. -/
theorem skipGap_reached {g : Gap} (hg : g.OpenedIn origin) (h : origin.Reaches ⟨p, rest⟩) :
    origin.Reaches (skipGap g p rest) := by
  fun_induction skipGap g p rest with
  | case1 p rest ih => exact ih trivial h.next.next
  | case2 p rest ih => exact ih h h.next.next
  | case3 p c rest _ _ hc ih => exact ih trivial h.next
  | case4 p c rest _ _ hc => exact h
  | case5 p c rest ih =>
    apply ih _ h.next
    split <;> trivial
  | case6 opened p rest ih => exact ih trivial h.next.next
  | case7 opened p c rest _ ih => exact ih hg h.next
  | case8 opened p => exact hg
  | case9 p g _ => exact h

/-- Skipping balanced text moves on, or goes back to where a bracket was opened. -/
theorem skipBalanced_reached {depth : Nat} {opened : Cursor} (hopened : origin.Reaches opened)
    (h : origin.Reaches ⟨p, rest⟩) : origin.Reaches (skipBalanced depth opened p rest) := by
  induction rest generalizing depth opened p with
  | nil =>
    unfold skipBalanced
    split
    · exact h
    · exact hopened
  | cons c rest ih =>
    unfold skipBalanced
    split
    · refine ih ?_ h.next
      split
      · exact h
      · exact hopened
    · split
      · split
        · exact h
        · exact ih hopened h.next
      · split
        · split
          · exact h
          · exact hopened
        · exact ih hopened h.next

/-- A text of characters that stand in names. -/
def IsPlain (name : String) : Prop := ∀ c ∈ name.toList, isNamePart c = true

namespace Scanner

theorem IsName.namePart {name : List Char} (h : IsName name) :
    ∀ c ∈ name, isNamePart c = true := by
  obtain ⟨first, more, rfl, hfirst, hmore⟩ := h
  exact List.forall_mem_cons.mpr ⟨isNamePart_of_isNameStart hfirst, hmore⟩

theorem IsName.isPlain {name : String} (h : IsName name.toList) : IsPlain name := h.namePart

theorem IsName.ne_empty {name : String} (h : IsName name.toList) : name ≠ "" := by
  rintro rfl
  obtain ⟨first, more, hname, -⟩ := h
  cases hname

/-! ## Scanners -/

/-- What a scanner leaves is behind the place where it started, whatever failed before; the value, if
there is one, has the property; and failures are on record at places that the origin comes to, if
they were before. -/
def Left {α : Type} (origin start : Cursor) (before : Attempts) (V : α → Prop) :
    Option (α × Cursor) × Attempts → Prop
  | (some (x, c), a) =>
    V x ∧ start.Reaches c ∧ (origin.Sees before.position → origin.Sees a.position)
  | (none, a) => origin.Sees before.position → origin.Sees a.position

/-- From a cursor behind the origin the scanner goes on, and its values have the property. -/
def Stays {α : Type} (origin : Cursor) (V : α → Prop) (s : Scanner α) : Prop :=
  ∀ c a, origin.Reaches c → Left origin c a V (s c a)

variable {α β : Type} {V : α → Prop} {W : β → Prop} {s t : Scanner α} {f : α → Scanner β}

theorem stays_pure {x : α} (hx : V x) : Stays origin V (pure x) :=
  fun c _ _ => ⟨hx, .refl c, id⟩

theorem stays_failure : Stays origin V failure := fun _ _ _ => id

theorem stays_get : Stays origin origin.Reaches (get : Scanner Cursor) :=
  fun c _ hc => ⟨hc, .refl c, id⟩

/-- The second scanner starts where the first stops. -/
theorem Stays.bind (h : Stays origin V s) (hf : ∀ x, V x → Stays origin W (f x)) :
    Stays origin W (s >>= f) := by
  intro c a hc
  have hleft := h c a hc
  cases hs : s c a with
  | mk result a' =>
    rw [hs] at hleft
    cases result with
    | none =>
      rw [bind_of_none hs]
      exact hleft
    | some found =>
      rw [bind_of_some hs]
      obtain ⟨hx, hreach, hsees⟩ := hleft
      have hnext := hf found.1 hx found.2 a' (hc.trans hreach)
      cases ht : f found.1 found.2 a' with
      | mk result a'' =>
        rw [ht] at hnext
        cases result with
        | none => exact fun ha => hnext (hsees ha)
        | some found' => exact ⟨hnext.1, hreach.trans hnext.2.1, fun ha => hnext.2.2 (hsees ha)⟩

theorem Stays.bind_pure (h : Stays origin V s) {g : α → β} (hg : ∀ x, V x → W (g x)) :
    Stays origin W (s >>= fun x => pure (g x)) :=
  h.bind fun x hx => stays_pure (hg x hx)

theorem Stays.map (h : Stays origin V s) {g : α → β} (hg : ∀ x, V x → W (g x)) :
    Stays origin W (g <$> s) := by
  rw [← bind_pure_comp]
  exact h.bind_pure hg

/-- The second alternative starts where the first did. -/
theorem Stays.orElse (h : Stays origin V s) (h' : Stays origin V t) : Stays origin V (s <|> t) := by
  intro c a hc
  have hleft := h c a hc
  cases hs : s c a with
  | mk result a' =>
    rw [hs] at hleft
    cases result with
    | none =>
      rw [orElse_of_none hs]
      have hnext := h' c a' hc
      cases ht : t c a' with
      | mk result a'' =>
        rw [ht] at hnext
        cases result with
        | none => exact fun ha => hnext (hleft ha)
        | some found => exact ⟨hnext.1, hnext.2.1, fun ha => hnext.2.2 (hleft ha)⟩
    | some found =>
      rw [orElse_of_some hs]
      exact hleft

/-- A failure is recorded where the production was tried, or further on. -/
theorem record_seen {a : Attempts} {production : Production} {before : Nat}
    (ha : origin.Sees a.position) (hp : origin.Sees p) :
    origin.Sees (a.record production p before).position := by
  unfold Attempts.record
  split
  · exact ha
  · split
    · exact ha
    · split
      · exact hp
      · exact ha

theorem Stays.named (production : Production) (h : Stays origin V s) :
    Stays origin V (named production s) := by
  intro c a hc
  have hleft := h c a hc
  cases hs : s c a with
  | mk result a' =>
    rw [hs] at hleft
    simp only [Scanner.named, hs]
    cases result with
    | none => exact fun ha => record_seen (hleft ha) hc.sees
    | some found => exact hleft

theorem Stays.maybe (h : Stays origin V s) : Stays origin (fun o => ∀ x ∈ o, V x) (maybe s) := by
  apply Stays.orElse
  · refine h.map fun x hx y hy => ?_
    cases hy
    exact hx
  · exact stays_pure fun x hx => absurd hx (Option.not_mem_none x)

/-- Values in a row, by induction over the limit. -/
theorem Stays.repeatUpTo (h : Stays origin V s) (limit : Nat) :
    Stays origin (fun xs => ∀ x ∈ xs, V x) (repeatUpTo s limit) := by
  induction limit with
  | zero => exact stays_pure fun x hx => absurd hx List.not_mem_nil
  | succ limit ih =>
    apply Stays.orElse
    · refine h.bind fun x hx => ih.bind_pure fun xs hxs => ?_
      exact List.forall_mem_cons.mpr ⟨hx, hxs⟩
    · exact stays_pure fun x hx => absurd hx List.not_mem_nil

theorem Stays.many (h : Stays origin V s) : Stays origin (fun xs => ∀ x ∈ xs, V x) (many s) :=
  stays_get.bind fun _ _ => h.repeatUpTo _

theorem stays_gap : Stays origin (fun _ => True) gap :=
  fun c _ _ => ⟨trivial, skipGap_reached trivial (.refl c), id⟩

theorem Stays.manyApart (h : Stays origin V s) :
    Stays origin (fun xs => ∀ x ∈ xs, V x) (manyApart s) := by
  apply Stays.orElse
  · have hlater : Stays origin V (do gap; s) := stays_gap.bind fun _ _ => h
    refine h.bind fun x hx => hlater.many.bind_pure fun xs hxs => ?_
    exact List.forall_mem_cons.mpr ⟨hx, hxs⟩
  · exact stays_pure fun x hx => absurd hx List.not_mem_nil

/-! ## Characters -/

variable {q : Char → Bool}

theorem stays_char : Stays origin (fun c => q c = true) (char q) := by
  rintro ⟨place, rest⟩ a -
  unfold char
  cases rest with
  | nil => exact id
  | cons x rest =>
    dsimp only
    split
    · rename_i hx
      exact ⟨hx, Cursor.Reaches.next (.refl _), id⟩
    · exact id

theorem stays_span : Stays origin (fun cs => ∀ c ∈ cs, q c = true) (span q) := by
  rintro ⟨place, rest⟩ a -
  exact ⟨fun c hmem => List.mem_takeWhile_imp hmem,
    ⟨rest.takeWhile q, List.takeWhile_append_dropWhile.symm, rfl⟩, id⟩

theorem stays_span1 : Stays origin (fun cs => cs ≠ [] ∧ ∀ c ∈ cs, q c = true) (span1 q) :=
  stays_char.bind fun c hc => stays_span.bind_pure fun cs hcs =>
    ⟨List.cons_ne_nil c cs, List.forall_mem_cons.mpr ⟨hc, hcs⟩⟩

theorem stays_word (w : List Char) : Stays origin (fun _ => True) (word w) := by
  induction w with
  | nil => exact stays_pure trivial
  | cons c w ih => exact stays_char.bind fun _ _ => ih

theorem stays_notNext : Stays origin (fun _ => True) (notNext q) := by
  rintro ⟨place, rest⟩ a -
  unfold notNext
  cases rest with
  | nil => exact ⟨trivial, .refl _, id⟩
  | cons x rest =>
    dsimp only
    split
    · exact id
    · exact ⟨trivial, .refl _, id⟩

theorem stays_next : Stays origin (fun _ => True) (next q) := by
  rintro ⟨place, rest⟩ a -
  unfold next
  cases rest with
  | nil => exact id
  | cons x rest =>
    dsimp only
    split
    · exact ⟨trivial, .refl _, id⟩
    · exact id

theorem stays_atEnd : Stays origin (fun _ => True) atEnd := by
  rintro ⟨place, rest⟩ a -
  unfold atEnd
  cases rest with
  | nil => exact ⟨trivial, .refl _, id⟩
  | cons x rest => exact id

theorem stays_name : Stays origin (fun n => IsName n.toList) name :=
  stays_char.bind fun first hfirst => stays_span.bind_pure fun more hmore =>
    ⟨first, more, String.toList_ofList, hfirst, hmore⟩

theorem stays_balanced : Stays origin (fun _ => True) balanced :=
  fun c _ _ => ⟨trivial, skipBalanced_reached (.refl c) (.refl c), id⟩

theorem stays_balanced1 : Stays origin (fun _ => True) balanced1 := by
  refine stays_balanced.bind fun found _ => ?_
  split
  · exact stays_failure
  · exact stays_pure trivial

/-- Where a scanner of a whole text answers, its value has the property. -/
theorem Stays.answer_ok {source : String} (h : Stays (.ofString source) V s) {found : α × Cursor}
    (hs : s.answer (.ofString source) = .ok found) : V found.1 := by
  have hleft := h _ .none (.refl (.ofString source))
  unfold answer at hs
  cases hresult : s (.ofString source) .none with
  | mk result a =>
    rw [hresult] at hleft hs
    cases result with
    | none => cases hs
    | some found' =>
      cases hs
      exact hleft.1

/-- Where a scanner of a whole text refuses, the furthest failures are at a place of the text. -/
theorem Stays.answer_error {source : String} (h : Stays (.ofString source) V s) {a : Attempts}
    (hs : s.answer (.ofString source) = .error a) : a.position.Within source.toList := by
  have hleft := h _ .none (.refl (.ofString source))
  unfold answer at hs
  cases hresult : s (.ofString source) .none with
  | mk result a' =>
    rw [hresult] at hleft hs
    cases result with
    | none =>
      cases hs
      exact (hleft ⟨_, .refl _, rfl⟩).within
    | some found => cases hs

end Scanner

end RecordLayout.Script
