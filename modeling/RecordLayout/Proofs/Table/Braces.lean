import RecordLayout.Proofs.Layout.Marks
import RecordLayout.Proofs.Table.WellFormed

/-!
# Unbounded arrays in blocks

In a well-formed block the structures that are open in front of an entry are those with one brace on
either side of it. So the rule for unbounded arrays, which goes by what is open, can be read off the
pairs of braces.
-/

namespace RecordLayout

namespace Block

variable {b : Block} {i j k c : Nat} {d e : Descriptor}

theorem Pair.kind_close (h : b.Pair k c) (hd : b.descriptors[c]? = some d) : d.kind = .closing := by
  obtain ⟨_, e, -, he, -, hkind, -⟩ := h.exists_entries
  cases he.symm.trans hd
  exact hkind

theorem Pair.kind_open (h : b.Pair k c) (hd : b.descriptors[k]? = some d) : d.kind = .opening := by
  obtain ⟨e, _, he, -, hkind, -⟩ := h.exists_entries
  cases he.symm.trans hd
  exact hkind

/-- A closing brace has one opening brace. -/
theorem Pair.eq_left (h : b.Pair i c) (h' : b.Pair j c) : i = j := by
  obtain ⟨_, e, -, he, -, -, -, hpair, -⟩ := h.exists_entries
  obtain ⟨_, e', -, he', -, -, -, hpair', -⟩ := h'.exists_entries
  cases he.symm.trans he'
  exact Option.some.inj (hpair.symm.trans hpair')

/-- An opening brace has one closing brace. -/
theorem Pair.eq_right (h : b.Pair k i) (h' : b.Pair k j) : i = j := by
  obtain ⟨d, _, hd, -, -, -, hpair, -⟩ := h.exists_entries
  obtain ⟨d', _, hd', -, -, -, hpair', -⟩ := h'.exists_entries
  cases hd.symm.trans hd'
  exact Option.some.inj (hpair.symm.trans hpair')

/-- An entry that is no closing brace stands inside a structure or behind it. -/
theorem Pair.lt_of_le (h : b.Pair k c) (hle : i ≤ c) (hd : b.descriptors[i]? = some d)
    (hkind : d.kind ≠ .closing) : i < c := by
  refine Nat.lt_of_le_of_ne hle ?_
  rintro rfl
  exact hkind (h.kind_close hd)

/-- Of the structures around a closing brace the innermost is the one that it closes. -/
theorem WellFormed.innermost (hb : b.WellFormed) {top : Nat} (hpair : b.Pair top i)
    {opened : List Nat} (hsorted : opened.Pairwise (· > ·))
    (hmem : ∀ k, k ∈ opened ↔ ∃ c, b.Pair k c ∧ k < i ∧ i ≤ c) :
    ∃ outer, opened = top :: outer ∧ ∀ k ∈ outer, k < top := by
  have htop := (hmem top).mpr ⟨i, hpair, hpair.lt, Nat.le_refl i⟩
  cases opened with
  | nil => exact absurd htop List.not_mem_nil
  | cons first outer =>
    obtain ⟨hinner, -⟩ := List.pairwise_cons.mp hsorted
    rcases List.mem_cons.mp htop with rfl | htop
    · exact ⟨outer, rfl, hinner⟩
    · -- a structure further in closes before the brace, so it is open no more
      obtain ⟨c, hc, hlt, hle⟩ := (hmem first).mp List.mem_cons_self
      have hnested := hb.nested top i first c hpair hc (hinner top htop) hlt
      omega

/-- The structures that are open in front of an index are those with one brace on either side. -/
theorem WellFormed.mem_opened (hb : b.WellFormed) (hi : i ≤ b.descriptors.length) :
    k ∈ Mark.opened ((b.descriptors.map Descriptor.mark).take i) ↔
      ∃ c, b.Pair k c ∧ k < i ∧ i ≤ c := by
  induction i generalizing k with
  | zero =>
    constructor
    · exact fun h => absurd h List.not_mem_nil
    · rintro ⟨c, -, hlt, -⟩
      exact absurd hlt (Nat.not_lt_zero k)
  | succ i ih =>
    have ih := fun k => @ih k (Nat.le_of_succ_le hi)
    obtain ⟨d, hd⟩ : ∃ d, b.descriptors[i]? = some d := ⟨_, List.getElem?_eq_getElem hi⟩
    have hnext : Mark.opened ((b.descriptors.map Descriptor.mark).take (i + 1)) =
        d.mark.openedBehind i (Mark.opened ((b.descriptors.map Descriptor.mark).take i)) := by
      rw [List.take_add_one, List.getElem?_map, hd, Option.map_some, Option.toList_some,
        Mark.opened_concat, List.length_take, List.length_map, Nat.min_eq_left (Nat.le_of_succ_le hi)]
    rw [hnext]
    rcases Descriptor.mark_cases d with ⟨hmark, hkind⟩ | ⟨hmark, hkind⟩ | ⟨hmark, hopening, hclosing⟩
    · -- an opening brace: its own closing brace comes later
      obtain ⟨j, hpair⟩ := hb.opening i d hd hkind
      rw [hmark, Mark.openedBehind, List.mem_cons, ih]
      constructor
      · rintro (rfl | ⟨c, hc, hlt, hle⟩)
        · exact ⟨j, hpair, Nat.lt_succ_self _, hpair.lt⟩
        · exact ⟨c, hc, Nat.lt_succ_of_lt hlt, hc.lt_of_le hle hd (by simp [hkind])⟩
      · rintro ⟨c, hc, hlt, hle⟩
        rcases Nat.lt_succ_iff_lt_or_eq.mp hlt with hlt | rfl
        · exact .inr ⟨c, hc, hlt, Nat.le_of_succ_le hle⟩
        · exact .inl rfl
    · -- a closing brace: the innermost of the structures is open no more
      obtain ⟨top, hpair⟩ := hb.closing i d hd hkind
      obtain ⟨outer, hopened, hinner⟩ := hb.innermost hpair (Mark.opened_sorted _).2 ih
      rw [hmark, Mark.openedBehind, hopened, List.tail_cons]
      rw [hopened] at ih
      constructor
      · intro hk
        obtain ⟨c, hc, hlt, hle⟩ := (ih k).mp (List.mem_cons_of_mem top hk)
        refine ⟨c, hc, Nat.lt_succ_of_lt hlt, Nat.lt_of_le_of_ne hle ?_⟩
        rintro rfl
        rw [hc.eq_left hpair] at hk
        exact Nat.lt_irrefl top (hinner top hk)
      · rintro ⟨c, hc, hlt, hle⟩
        have hki : k ≠ i := by
          rintro rfl
          have hopening := hc.kind_open hd
          rw [hkind] at hopening
          cases hopening
        rcases List.mem_cons.mp ((ih k).mpr ⟨c, hc, by omega, by omega⟩) with rfl | hk
        · have := hc.eq_right hpair
          omega
        · exact hk
    · -- any other entry opens and closes nothing
      rw [hmark, Mark.openedBehind, ih]
      constructor
      · rintro ⟨c, hc, hlt, hle⟩
        exact ⟨c, hc, Nat.lt_succ_of_lt hlt, hc.lt_of_le hle hd hclosing⟩
      · rintro ⟨c, hc, hlt, hle⟩
        refine ⟨c, hc, Nat.lt_of_le_of_ne (Nat.le_of_lt_succ hlt) ?_, Nat.le_of_succ_le hle⟩
        rintro rfl
        exact hopening (hc.kind_open hd)

/-- An entry of the block of a layout is an unbounded array if its length says so. -/
theorem unboundedAt_block {l : Layout} {handlers : List CustomType} (h : l.Scoped handlers 0 [])
    (hd : (l.block handlers).descriptors[i]? = some d) :
    Mark.UnboundedAt ((l.block handlers).descriptors.map Descriptor.mark) i ↔
      d.length = some .unbounded := by
  rw [Mark.UnboundedAt, List.getElem?_map, hd, Option.map_some]
  rcases d.mark_cases with ⟨hmark, -⟩ | ⟨hmark, hkind⟩ | ⟨hmark, -⟩
  · simp [hmark, Mark.extent]
  · have hlength : d.length = none := by
      cases exists_entry_block h hd with
      | item stands lower upper =>
        rw [stands.item_entry] at hd
        cases hd
        exact absurd hkind (Layout.itemEntry_kind _ _ _).2
      | opening stands lower upper =>
        rw [stands.group_entry] at hd
        cases hd
        cases hkind
      | closing stands index lower upper =>
        rw [index, stands.group_close] at hd
        cases hd
        rfl
    simp [hmark, hlength, Mark.extent]
  · simp [hmark, Mark.extent]

/-- The rule for unbounded arrays, in terms of the entries of a block. -/
structure UnboundedLast (b : Block) : Prop where
  /-- There is one at most. -/
  once : ∀ (i j : Nat) (d e : Descriptor), b.descriptors[i]? = some d →
    b.descriptors[j]? = some e → d.length = some .unbounded → e.length = some .unbounded → i = j
  /-- No structure around it is an array. -/
  alone : ∀ (i k c : Nat) (d e : Descriptor), b.descriptors[i]? = some d →
    d.length = some .unbounded → b.Pair k c → k < i → i < c → b.descriptors[k]? = some e →
      e.length = none
  /-- Behind it, or behind its closing brace if it is a structure, there are closing braces only. -/
  last : ∀ (i j : Nat) (d e : Descriptor), b.descriptors[i]? = some d →
    d.length = some .unbounded → i < j → (∀ c, b.Pair i c → c < j) → b.descriptors[j]? = some e →
      e.kind = .closing

/-- An unbounded array of the block is its last declaration, up to closing braces. -/
theorem unboundedLast_block {l : Layout} {handlers : List CustomType} (h : l.Scoped handlers 0 [])
    (hplaced : Mark.Placed ((l.block handlers).descriptors.map Descriptor.mark)) :
    (l.block handlers).UnboundedLast := by
  have hwell := wellFormed_block h
  have hmark : ∀ {i : Nat} {d : Descriptor}, (l.block handlers).descriptors[i]? = some d →
      ((l.block handlers).descriptors.map Descriptor.mark)[i]? = some d.mark := by
    intro i d hd
    rw [List.getElem?_map, hd, Option.map_some]
  refine ⟨fun i j d e hd he hi hj => ?_, fun i k c d e hd hi hpair hk hc he => ?_,
    fun i j d e hd hi hij hclosed he => ?_⟩
  · exact hplaced.once i j ((unboundedAt_block h hd).mpr hi) ((unboundedAt_block h he).mpr hj)
  · have hlt := (List.getElem?_eq_some_iff.mp hd).1
    have hopen := (hwell.mem_opened hlt.le).mpr ⟨c, hpair, hk, hc.le⟩
    have hsingle := hplaced.alone i k _ ((unboundedAt_block h hd).mpr hi) hopen (hmark he)
    have hkind := hpair.kind_open he
    rcases e.mark_cases with ⟨hmark, -⟩ | ⟨-, hclosing⟩ | ⟨-, hother, -⟩
    · rw [hmark, Mark.extent, Extent.ofListed_eq_single] at hsingle
      exact hsingle
    · rw [hkind] at hclosing
      cases hclosing
    · exact absurd hkind hother
  · have hlt := (List.getElem?_eq_some_iff.mp he).1
    have hclosing := hplaced.last i j _ ((unboundedAt_block h hd).mpr hi) hij ?_ (hmark he)
    · rcases e.mark_cases with ⟨hmark, -⟩ | ⟨-, hkind⟩ | ⟨hmark, -⟩
      · rw [hmark] at hclosing
        cases hclosing
      · exact hkind
      · rw [hmark] at hclosing
        cases hclosing
    · rw [hwell.mem_opened hlt.le]
      rintro ⟨c, hpair, -, hle⟩
      exact absurd (hclosed c hpair) (by omega)

end Block

end RecordLayout
