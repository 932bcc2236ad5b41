import Mathlib
import RecordLayout.Layout.Listing
import RecordLayout.Script.Token

/-!
# The rule for unbounded arrays

An unbounded array takes the rest of the record. A script may declare one, in no structure that is an
array, and only closing braces may stand behind it. The rule is about tokens and about the entries of
a listing alike, so it is stated of what the two have in common: each is a mark, a brace or a field
with what stands in its brackets. Marks keep the rule as long as each of them is allowed by those in
front of it.
-/

namespace RecordLayout

/-- What stands in the brackets of a declaration. -/
inductive Extent where
  /-- There are no brackets. -/
  | single
  | counted
  | unbounded
  deriving DecidableEq, Repr

namespace Extent

/-- The brackets of a token. -/
def ofSize : Option Script.Size → Extent
  | none => single
  | some .unbounded => unbounded
  | some (.expression _) => counted

/-- The brackets of a declaration of a layout. -/
def ofLength : Option Length → Extent
  | none => single
  | some .unbounded => unbounded
  | some _ => counted

/-- The brackets of an entry of a listing. -/
def ofListed : Option ListedLength → Extent
  | none => single
  | some .unbounded => unbounded
  | some _ => counted

@[simp] theorem ofLength_eq_single {length : Option Length} :
    ofLength length = single ↔ length = none := by
  rcases length with _ | _ | _ | _ <;> simp [ofLength]

@[simp] theorem ofLength_eq_unbounded {length : Option Length} :
    ofLength length = unbounded ↔ length = some .unbounded := by
  rcases length with _ | _ | _ | _ <;> simp [ofLength]

theorem ofSize_eq_unbounded {size : Option Script.Size} :
    ofSize size = unbounded ↔ size = some .unbounded := by
  rcases size with _ | _ | _ <;> simp [ofSize]

@[simp] theorem ofListed_eq_single {length : Option ListedLength} :
    ofListed length = single ↔ length = none := by
  rcases length with _ | _ | _ | _ <;> simp [ofListed]

@[simp] theorem ofListed_eq_unbounded {length : Option ListedLength} :
    ofListed length = unbounded ↔ length = some .unbounded := by
  rcases length with _ | _ | _ | _ <;> simp [ofListed]

theorem ofListed_length (n : ListingNumbers) (length : Option Length) :
    ofListed (n.length length).1 = ofLength length := by
  rcases length with _ | _ | _ | _ <;> rfl

end Extent

/-- A token or an entry of a listing, as a brace or a field. -/
inductive Mark where
  | leaf (extent : Extent)
  | opening (extent : Extent)
  | closing
  deriving DecidableEq, Repr

namespace Mark

/-- What stands in the brackets; a closing brace has none. -/
def extent : Mark → Extent
  | leaf extent | opening extent => extent
  | closing => .single

/-- The structures open behind a mark, by their indexes, the innermost first. -/
def openedBehind (index : Nat) (opened : List Nat) : Mark → List Nat
  | leaf _ => opened
  | opening _ => index :: opened
  | closing => opened.tail

/-- The structures open behind marks that begin at an index. -/
def openedFrom (index : Nat) (opened : List Nat) : List Mark → List Nat
  | [] => opened
  | m :: marks => openedFrom (index + 1) (m.openedBehind index opened) marks

/-- The structures that are open behind these marks: those that enclose what comes next. -/
def opened (marks : List Mark) : List Nat := openedFrom 0 [] marks

/-- The declaration with the index is an unbounded array. -/
def UnboundedAt (marks : List Mark) (i : Nat) : Prop :=
  ∃ m, marks[i]? = some m ∧ m.extent = .unbounded

/-- The rule for unbounded arrays. -/
structure Placed (marks : List Mark) : Prop where
  /-- There is one at most. -/
  once : ∀ i j, UnboundedAt marks i → UnboundedAt marks j → i = j
  /-- No structure around it is an array. -/
  alone : ∀ i k m, UnboundedAt marks i → k ∈ opened (marks.take i) → marks[k]? = some m →
    m.extent = .single
  /-- Behind it, or behind its closing brace if it is a structure, there are closing braces only. -/
  last : ∀ i j m, UnboundedAt marks i → i < j → i ∉ opened (marks.take j) → marks[j]? = some m →
    m = .closing

/-! ## One more mark -/

variable {marks rest : List Mark} {m : Mark} {i k : Nat}

/-- The structures that are open behind one more mark. -/
theorem openedFrom_concat (index : Nat) (opened : List Nat) :
    openedFrom index opened (marks ++ [m]) =
      m.openedBehind (index + marks.length) (openedFrom index opened marks) := by
  induction marks generalizing index opened with
  | nil => rfl
  | cons first marks ih =>
    rw [List.cons_append, openedFrom, ih, openedFrom, List.length_cons, Nat.add_assoc,
      Nat.add_comm 1]

theorem opened_concat (marks : List Mark) (m : Mark) :
    opened (marks ++ [m]) = m.openedBehind marks.length (opened marks) := by
  rw [opened, openedFrom_concat, Nat.zero_add, opened]

/-- What is open has been opened, and later structures are further in. -/
theorem opened_sorted (marks : List Mark) :
    (∀ k ∈ opened marks, k < marks.length) ∧ (opened marks).Pairwise (· > ·) := by
  induction marks using List.reverseRecOn with
  | nil => exact ⟨fun k hk => absurd hk List.not_mem_nil, .nil⟩
  | append_singleton marks m ih =>
    obtain ⟨hlt, hsorted⟩ := ih
    rw [opened_concat, List.length_append, List.length_singleton]
    cases m with
    | leaf extent => exact ⟨fun k hk => Nat.lt_succ_of_lt (hlt k hk), hsorted⟩
    | opening extent =>
      refine ⟨List.forall_mem_cons.mpr ⟨Nat.lt_succ_self _, fun k hk => ?_⟩, .cons hlt hsorted⟩
      exact Nat.lt_succ_of_lt (hlt k hk)
    | closing =>
      exact ⟨fun k hk => Nat.lt_succ_of_lt (hlt k (List.mem_of_mem_tail hk)), hsorted.tail⟩

theorem lt_of_mem_opened (h : k ∈ opened marks) : k < marks.length := (opened_sorted marks).1 k h

theorem UnboundedAt.lt (h : UnboundedAt marks i) : i < marks.length := by
  obtain ⟨m, hm, -⟩ := h
  exact (List.getElem?_eq_some_iff.mp hm).1

theorem unboundedAt_append_of_lt (hi : i < marks.length) :
    UnboundedAt (marks ++ rest) i ↔ UnboundedAt marks i := by
  rw [UnboundedAt, UnboundedAt, List.getElem?_append_left hi]

theorem getElem?_next : (marks ++ m :: rest)[marks.length]? = some m := by
  rw [List.getElem?_append_right (Nat.le_refl _), Nat.sub_self, List.getElem?_cons_zero]

theorem unboundedAt_concat_length :
    UnboundedAt (marks ++ m :: rest) marks.length ↔ m.extent = .unbounded := by
  rw [UnboundedAt, getElem?_next]
  constructor
  · rintro ⟨_, ⟨⟩, hm⟩
    exact hm
  · exact fun hm => ⟨m, rfl, hm⟩

/-- An unbounded mark of a longer script is one of the shorter or the new one. -/
theorem lt_or_eq_of_unboundedAt_concat (h : UnboundedAt (marks ++ [m]) i) :
    UnboundedAt marks i ∨ i = marks.length ∧ m.extent = .unbounded := by
  have hlt := h.lt
  rw [List.length_append, List.length_singleton] at hlt
  rcases Nat.lt_succ_iff_lt_or_eq.mp hlt with hlt | rfl
  · exact .inl ((unboundedAt_append_of_lt hlt).mp h)
  · exact .inr ⟨rfl, unboundedAt_concat_length.mp h⟩

/-- An unbounded array is complete. -/
def HasEnded (marks : List Mark) : Prop := ∃ i, UnboundedAt marks i ∧ i ∉ opened marks

/-- A field ends the script if it is unbounded. -/
theorem hasEnded_leaf {extent : Extent} :
    HasEnded (marks ++ [leaf extent]) ↔ HasEnded marks ∨ extent = .unbounded := by
  constructor
  · rintro ⟨i, hi, hopen⟩
    rw [opened_concat] at hopen
    rcases lt_or_eq_of_unboundedAt_concat hi with hi | ⟨rfl, hm⟩
    · exact .inl ⟨i, hi, hopen⟩
    · exact .inr hm
  · rintro (⟨i, hi, hopen⟩ | hm)
    · exact ⟨i, (unboundedAt_append_of_lt hi.lt).mpr hi, by rwa [opened_concat]⟩
    · refine ⟨marks.length, unboundedAt_concat_length.mpr hm, fun hopen => ?_⟩
      rw [opened_concat] at hopen
      exact Nat.lt_irrefl _ (lt_of_mem_opened hopen)

/-- An opening brace ends none: what it opens is still open. -/
theorem hasEnded_opening {extent : Extent} :
    HasEnded (marks ++ [opening extent]) ↔ HasEnded marks := by
  constructor
  · rintro ⟨i, hi, hopen⟩
    rw [opened_concat, openedBehind, List.mem_cons, not_or] at hopen
    rcases lt_or_eq_of_unboundedAt_concat hi with hi | ⟨rfl, -⟩
    · exact ⟨i, hi, hopen.2⟩
    · exact absurd rfl hopen.1
  · rintro ⟨i, hi, hopen⟩
    refine ⟨i, (unboundedAt_append_of_lt hi.lt).mpr hi, ?_⟩
    rw [opened_concat, openedBehind, List.mem_cons, not_or]
    exact ⟨hi.lt.ne, hopen⟩

/-- A closing brace completes the structure that it closes. -/
theorem hasEnded_closing {outer : List Nat} (hk : opened marks = k :: outer) :
    HasEnded (marks ++ [closing]) ↔ HasEnded marks ∨ UnboundedAt marks k := by
  have hsorted := (opened_sorted marks).2
  rw [hk, List.pairwise_cons] at hsorted
  have hbehind : opened (marks ++ [closing]) = outer := by
    rw [opened_concat, openedBehind, hk, List.tail_cons]
  constructor
  · rintro ⟨i, hi, hopen⟩
    rw [hbehind] at hopen
    rcases lt_or_eq_of_unboundedAt_concat hi with hi | ⟨rfl, hm⟩
    · by_cases hik : i = k
      · exact .inr (hik ▸ hi)
      · refine .inl ⟨i, hi, ?_⟩
        rw [hk, List.mem_cons, not_or]
        exact ⟨hik, hopen⟩
    · cases hm
  · rintro (⟨i, hi, hopen⟩ | hi)
    · rw [hk, List.mem_cons, not_or] at hopen
      exact ⟨i, (unboundedAt_append_of_lt hi.lt).mpr hi, by rw [hbehind]; exact hopen.2⟩
    · refine ⟨k, (unboundedAt_append_of_lt hi.lt).mpr hi, fun hopen => ?_⟩
      rw [hbehind] at hopen
      exact Nat.lt_irrefl k (hsorted.1 k hopen)

/-- What the marks so far allow to come next. -/
structure Allows (marks : List Mark) (m : Mark) : Prop where
  last : HasEnded marks → m = .closing
  alone : m.extent = .unbounded → ∀ k ∈ opened marks, ∀ outer, marks[k]? = some outer →
    outer.extent = .single

/-- Behind an unbounded array there is no other one, neither inside it nor behind it. -/
theorem Allows.not_unboundedAt (h : Allows marks m) (hm : m.extent = .unbounded) :
    ¬ UnboundedAt marks i := by
  intro hi
  by_cases hopen : i ∈ opened marks
  · obtain ⟨outer, houter, hextent⟩ := hi
    rw [h.alone hm i hopen outer houter] at hextent
    cases hextent
  · rw [h.last ⟨i, hi, hopen⟩] at hm
    cases hm

/-- A mark that is followed by others is allowed behind those in front. -/
theorem Placed.allows (h : Placed (marks ++ m :: rest)) : Allows marks m := by
  have htake : (marks ++ m :: rest).take marks.length = marks := List.take_left
  refine ⟨fun ⟨i, hi, hopen⟩ => ?_, fun hm k hk outer houter => ?_⟩
  · refine h.last i marks.length m ((unboundedAt_append_of_lt hi.lt).mpr hi) hi.lt ?_ getElem?_next
    rwa [htake]
  · refine h.alone marks.length k outer (unboundedAt_concat_length.mpr hm) ?_ ?_
    · rwa [htake]
    · rwa [List.getElem?_append_left (lt_of_mem_opened hk)]

/-- One allowed mark more keeps all marks well placed. -/
theorem Placed.concat (h : Placed marks) (hm : Allows marks m) : Placed (marks ++ [m]) := by
  have htake : ∀ {j}, j ≤ marks.length → (marks ++ [m]).take j = marks.take j :=
    fun hj => List.take_append_of_le_length hj
  refine ⟨fun i j hi hj => ?_, fun i k outer hi hk houter => ?_, fun i j later hi hij hopen hj => ?_⟩
  · rcases lt_or_eq_of_unboundedAt_concat hi with hi | ⟨rfl, hlast⟩
    · rcases lt_or_eq_of_unboundedAt_concat hj with hj | ⟨-, hlast⟩
      · exact h.once i j hi hj
      · exact absurd hi (hm.not_unboundedAt hlast)
    · rcases lt_or_eq_of_unboundedAt_concat hj with hj | ⟨rfl, -⟩
      · exact absurd hj (hm.not_unboundedAt hlast)
      · rfl
  · rcases lt_or_eq_of_unboundedAt_concat hi with hi | ⟨rfl, hlast⟩
    · rw [htake hi.lt.le] at hk
      have hlt := lt_of_mem_opened hk
      rw [List.length_take] at hlt
      rw [List.getElem?_append_left (by omega)] at houter
      exact h.alone i k outer hi hk houter
    · rw [htake (Nat.le_refl _), List.take_length] at hk
      rw [List.getElem?_append_left (lt_of_mem_opened hk)] at houter
      exact hm.alone hlast k hk outer houter
  · have hlt := (List.getElem?_eq_some_iff.mp hj).1
    rw [List.length_append, List.length_singleton, Nat.lt_succ_iff] at hlt
    have hi := (unboundedAt_append_of_lt (hij.trans_le hlt)).mp hi
    rw [htake hlt] at hopen
    rcases Nat.eq_or_lt_of_le hlt with rfl | hlt
    · rw [List.take_length] at hopen
      rw [List.getElem?_concat_length] at hj
      cases hj
      exact hm.last ⟨i, hi, hopen⟩
    · rw [List.getElem?_append_left hlt] at hj
      exact h.last i j later hi hij hopen hj

end Mark

/-! ## Marks of tokens and of listings -/

/-- The mark of a declaration. -/
def Script.Declaration.mark : Declaration → Mark
  | field decl => .leaf (.ofSize decl.size)
  | opening _ size => .opening (.ofSize size)
  | closing => .closing

/-- The mark of a token. -/
def Script.Token.mark (t : Token) : Mark := t.declaration.mark

/-- The mark of an entry of a listing. -/
def Descriptor.mark (d : Descriptor) : Mark :=
  match d.kind with
  | .opening => .opening (.ofListed d.length)
  | .closing => .closing
  | _ => .leaf (.ofListed d.length)

/-- A descriptor is an opening brace, a closing one or a leaf. -/
theorem Descriptor.mark_cases (d : Descriptor) :
    (d.mark = .opening (.ofListed d.length) ∧ d.kind = .opening) ∨
      (d.mark = .closing ∧ d.kind = .closing) ∨
        d.mark = .leaf (.ofListed d.length) ∧ d.kind ≠ .opening ∧ d.kind ≠ .closing := by
  unfold mark
  cases d.kind <;> simp

/-- The marks of a layout. -/
def Layout.marks : Layout → List Mark
  | done => []
  | item _ decl rest => .leaf (.ofLength decl.length) :: rest.marks
  | group _ length body _ rest =>
    .opening (.ofLength length) :: body.marks ++ .closing :: rest.marks

theorem Layout.marks_append (k l : Layout) : (k ++ l).marks = k.marks ++ l.marks := by
  induction k with
  | done => rfl
  | item head decl rest ih => rw [item_append, marks, ih, marks, List.cons_append]
  | group head length body closing rest _ ih =>
    rw [group_append, marks, ih, marks, List.append_assoc, List.cons_append]
    rfl

/-- The marks of the descriptors are those of the layout, whatever number the listing begins with.
-/
theorem Layout.listFrom_marks (n : ListingNumbers) (l : Layout) :
    (listFrom n l).1.map Descriptor.mark = l.marks := by
  induction l generalizing n with
  | done => rfl
  | item head decl rest ih =>
    rw [listFrom, marks]
    simp only [List.map_cons, ih]
    congr 1
    rcases decl with ⟨_ | _ | _ | _, length⟩ | _ | _ | _ | _ <;>
      simp [Descriptor.mark, Decl.kind, ElementType.kind, Decl.length, Extent.ofListed_length]
  | group head length body closing rest ihbody ihrest =>
    rw [listFrom, marks]
    simp only [List.map_cons, List.map_append, List.cons_append, ihbody, ihrest]
    simp only [Descriptor.mark, Extent.ofListed_length]

/-- A listing has the marks of its layout. -/
theorem Layout.descriptors_marks (l : Layout) : l.descriptors.map Descriptor.mark = l.marks :=
  listFrom_marks ⟨0, 0, 0⟩ l

end RecordLayout
