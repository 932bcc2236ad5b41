import RecordLayout.Proofs.Layout.Scoping

/-!
# Sites of declarations

Every declaration has its site in a layout: its index, its name, whether its value is a single
integer, and the structure arrays around it. The sites of a compiled layout stand in the order of
their indexes, and an array stands before everything inside it.
-/

namespace RecordLayout

/-- Where a declaration stands and what it declares. -/
structure Site where
  index : Nat
  name : Option FieldInfo
  numeric : Bool
  /-- The indexes of the structure arrays around it, the outermost first. -/
  arrays : List Nat

/-- The name that stands at the site. -/
def Site.declares (p : Site) : List Declared := p.name.toList.map (⟨·, p.numeric⟩)

/-- The names that stand at sites. -/
def Site.names (ps : List Site) : List Declared := ps.flatMap Site.declares

theorem Site.names_append (ps qs : List Site) : names (ps ++ qs) = names ps ++ names qs :=
  List.flatMap_append

theorem Site.names_concat (ps : List Site) (p : Site) :
    names (ps ++ [p]) = names ps ++ p.declares := by
  rw [names_append]
  exact congrArg _ (List.flatMap_singleton _ _)

namespace Layout

/-- The structure arrays around the body of a structure. -/
def within (arrays : List Nat) (head : Header) (length : Option Length) : List Nat :=
  if length.isSome then arrays ++ [head.index] else arrays

/-- The sites of a layout that stands inside these structure arrays. -/
def sites (arrays : List Nat) : Layout → List Site
  | done => []
  | item head decl rest => ⟨head.index, head.info, decl.isNumeric, arrays⟩ :: rest.sites arrays
  | group head length body _ rest =>
    ⟨head.index, head.info, false, arrays⟩ ::
      body.sites (within arrays head length) ++ rest.sites arrays

/-- The structure arrays around the declaration with an index, the outermost first. -/
def arraysAround (l : Layout) (index : Nat) : List Nat :=
  match (l.sites []).find? (·.index == index) with
  | some p => p.arrays
  | none => []

/-- The declared names are those of the sites, in their order. -/
theorem declared_eq (l : Layout) (arrays : List Nat) : l.declared = Site.names (l.sites arrays) := by
  induction l generalizing arrays with
  | done => rfl
  | item head decl rest ih =>
    rw [declared, sites, Site.names, List.flatMap_cons, ih arrays]
    rfl
  | group head length body closing rest ihbody ihrest =>
    rw [declared, sites, Site.names, List.flatMap_append, List.flatMap_cons,
      ihbody (within arrays head length), ihrest arrays]
    rfl

/-- The arrays around a layout are around everything in it. -/
theorem mem_arrays_of_mem_sites {l : Layout} {arrays : List Nat} {p : Site}
    (hp : p ∈ l.sites arrays) {a : Nat} (ha : a ∈ arrays) : a ∈ p.arrays := by
  induction l generalizing arrays with
  | done => cases hp
  | item head decl rest ih =>
    rcases List.mem_cons.mp hp with rfl | hp
    · exact ha
    · exact ih hp ha
  | group head length body closing rest ihbody ihrest =>
    rcases List.mem_append.mp hp with hp | hp
    · rcases List.mem_cons.mp hp with rfl | hp
      · exact ha
      · apply ihbody hp
        unfold within
        split
        · exact List.mem_append_left _ ha
        · exact ha
    · exact ihrest hp ha

theorem mem_arrays_of_mem_body {body : Layout} {arrays : List Nat} {head : Header}
    {length : Option Length} (h : length.isSome) :
    ∀ p ∈ body.sites (within arrays head length), head.index ∈ p.arrays := by
  intro p hp
  apply mem_arrays_of_mem_sites hp
  rw [within, if_pos h]
  exact List.mem_append_right _ (List.mem_singleton_self _)

/-- What holds of the sites of a layout whose first declaration has index `n`. -/
structure Placed (n size : Nat) (ps : List Site) : Prop where
  lower : ∀ p ∈ ps, n ≤ p.index
  upper : ∀ p ∈ ps, p.index < n + size
  sorted : ps.Pairwise fun p q => p.index < q.index
  outside : ∀ p ∈ ps, ∀ a ∈ p.arrays, a < p.index
  named : ∀ p ∈ ps, ∀ info, p.name = some info → info.index = p.index

theorem Placed.nil (n : Nat) : Placed n 0 [] :=
  ⟨by simp, by simp, .nil, by simp, by simp⟩

/-- A declaration in front of sites that begin behind it. -/
theorem Placed.cons {n size : Nat} {p : Site} {ps : List Site} (hindex : p.index = n)
    (houtside : ∀ a ∈ p.arrays, a < n) (hname : ∀ info, p.name = some info → info.index = n)
    (h : Placed (n + 1) size ps) : Placed n (1 + size) (p :: ps) := by
  subst hindex
  refine ⟨?_, ?_, ?_, ?_, ?_⟩
  · intro q hq
    rcases List.mem_cons.mp hq with rfl | hq
    · exact Nat.le_refl _
    · exact (Nat.le_succ _).trans (h.lower q hq)
  · intro q hq
    rcases List.mem_cons.mp hq with rfl | hq
    · omega
    · have := h.upper q hq
      omega
  · exact List.pairwise_cons.mpr ⟨fun q hq => h.lower q hq, h.sorted⟩
  · intro q hq
    rcases List.mem_cons.mp hq with rfl | hq
    · exact houtside
    · exact h.outside q hq
  · intro q hq
    rcases List.mem_cons.mp hq with rfl | hq
    · exact hname
    · exact h.named q hq

/-- Sites one behind another stay placed, whatever gap of indices is between them. -/
theorem Placed.append {n size more : Nat} {ps qs : List Site} (gap : Nat) (hp : Placed n size ps)
    (hq : Placed (n + size + gap) more qs) : Placed n (size + gap + more) (ps ++ qs) := by
  refine ⟨?_, ?_, ?_, ?_, ?_⟩
  · intro p hmem
    rcases List.mem_append.mp hmem with hmem | hmem
    · exact hp.lower p hmem
    · have := hq.lower p hmem
      omega
  · intro p hmem
    rcases List.mem_append.mp hmem with hmem | hmem
    · have := hp.upper p hmem
      omega
    · have := hq.upper p hmem
      omega
  · refine List.pairwise_append.mpr ⟨hp.sorted, hq.sorted, ?_⟩
    intro p hpmem q hqmem
    have := hp.upper p hpmem
    have := hq.lower q hqmem
    omega
  · intro p hmem
    rcases List.mem_append.mp hmem with hmem | hmem
    · exact hp.outside p hmem
    · exact hq.outside p hmem
  · intro p hmem
    rcases List.mem_append.mp hmem with hmem | hmem
    · exact hp.named p hmem
    · exact hq.named p hmem

/-- The sites of a well scoped layout are placed in order, each within arrays in front of it. -/
theorem sites_placed {customs : List CustomType} {l : Layout} {n : Nat} {seen : List Declared}
    {arrays : List Nat} (h : l.Scoped customs n seen) (harrays : ∀ a ∈ arrays, a < n) :
    Placed n l.size (l.sites arrays) := by
  induction l generalizing n seen arrays with
  | done => exact .nil n
  | item head decl rest ih =>
    obtain ⟨hhead, -, -, hrest⟩ := h
    refine .cons hhead.index harrays hhead.info (ih hrest fun a ha => ?_)
    exact (harrays a ha).trans (Nat.lt_succ_self n)
  | group head length body closing rest ihbody ihrest =>
    obtain ⟨hhead, -, hbody, hrest⟩ := h
    have hwithin : ∀ a ∈ within arrays head length, a < n + 1 := by
      intro a ha
      unfold within at ha
      split at ha
      · rcases List.mem_append.mp ha with ha | ha
        · exact (harrays a ha).trans (Nat.lt_succ_self n)
        · rw [List.mem_singleton.mp ha, hhead.index]
          exact Nat.lt_succ_self n
      · exact (harrays a ha).trans (Nat.lt_succ_self n)
    have hfirst : Placed n (1 + body.size) _ :=
      .cons (p := ⟨head.index, head.info, false, arrays⟩) hhead.index harrays hhead.info
        (ihbody hbody hwithin)
    have hrest' := ihrest hrest fun a ha => (harrays a ha).trans (by omega)
    have happend := hfirst.append 1
      (by rwa [show n + (1 + body.size) + 1 = n + 2 + body.size by omega])
    rw [size, show 2 + body.size + rest.size = 1 + body.size + 1 + rest.size by omega]
    exact happend

/-! What follows a declaration knows the name that stands at its site. -/

section

variable {customs : List CustomType} {n : Nat} {before : List Site} {head : Header} {rest : Layout}

theorem scoped_rest_item {decl : Decl} (arrays : List Nat)
    (h : (item head decl rest).Scoped customs n (Site.names before)) :
    rest.Scoped customs (n + 1)
      (Site.names (before ++ [⟨head.index, head.info, decl.isNumeric, arrays⟩])) := by
  rw [Site.names_concat]
  exact h.2.2.2

variable {length : Option Length} {body : Layout} {closing : Position}
  (h : (group head length body closing rest).Scoped customs n (Site.names before))
include h

theorem scoped_body_group (arrays : List Nat) :
    body.Scoped customs (n + 1)
      (Site.names (before ++ [⟨head.index, head.info, false, arrays⟩])) := by
  rw [Site.names_concat]
  exact h.2.2.1

theorem scoped_rest_group (arrays inside : List Nat) :
    rest.Scoped customs (n + 2 + body.size)
      (Site.names (before ++ [⟨head.index, head.info, false, arrays⟩] ++ body.sites inside)) := by
  rw [Site.names_append, Site.names_concat, ← declared_eq]
  exact h.2.2.2

end

/-- The site of a declaration is found by its index. -/
theorem find_of_sorted {ps : List Site} (h : ps.Pairwise fun p q => p.index < q.index) {p : Site}
    (hp : p ∈ ps) : ps.find? (·.index == p.index) = some p := by
  induction ps with
  | nil => cases hp
  | cons q ps ih =>
    obtain ⟨hlt, hsorted⟩ := List.pairwise_cons.mp h
    rcases List.mem_cons.mp hp with rfl | hp
    · rw [List.find?_cons_of_pos (by simp)]
    · have hne := (hlt p hp).ne
      rw [List.find?_cons_of_neg (by simpa using hne)]
      exact ih hsorted hp

theorem arraysAround_eq {l : Layout} (h : (l.sites []).Pairwise fun p q => p.index < q.index)
    {p : Site} (hp : p ∈ l.sites []) : l.arraysAround p.index = p.arrays := by
  rw [arraysAround, find_of_sorted h hp]

end Layout

end RecordLayout
