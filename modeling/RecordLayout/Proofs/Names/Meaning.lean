import RecordLayout.Proofs.Layout.Scoping

/-!
# What names mean

A name in an expression chooses one of the declarations met so far: in the innermost enclosing
structure that declares it, or else the one whose path it is, or else the one with the shortest of
the paths that end in it. It means the field that it chooses, which is a single integer, or, marked
as external or chosen by nothing in the whole script, an external. The lookup of a scope is this
choice.
-/

namespace RecordLayout

/-- The path is the name or ends with a point and the name. -/
def Answers (path name : String) : Prop := path = name ∨ ∃ outer, path = outer ++ "." ++ name

/-- The comparison of ends by bytes says whether a path answers to a name. -/
theorem pathMatches_iff {path name : String} : pathMatches path name = true ↔ Answers path name := by
  rw [pathMatches, Bool.or_eq_true, beq_iff_eq, List.isSuffixOf_iff_suffix]
  refine or_congr_right ⟨?_, ?_⟩
  · rintro ⟨outer, houter⟩
    refine ⟨.ofList outer, String.toList_injective ?_⟩
    rw [← houter, String.toList_append, String.toList_append, String.toList_ofList,
      List.append_assoc]
    rfl
  · rintro ⟨outer, rfl⟩
    refine ⟨outer.toList, ?_⟩
    rw [String.toList_append, String.toList_append, List.append_assoc]
    rfl

/-- A name as it stands in an expression. -/
structure Mention where
  name : String
  /-- The name is marked as external. -/
  marked : Bool
  deriving DecidableEq, Repr

/-- What a name in an expression stands for. -/
inductive Target where
  | field (info : FieldInfo)
  | external (name : String)
  deriving DecidableEq, Repr

/-- The expression that stands for a target. -/
def Target.expr : Target → Expr
  | field info => .field info
  | external name => .external name

namespace Scope

/-- Something with this path is declared. -/
def Declares (s : Scope) (path : String) : Prop := ∃ d ∈ s.declared, d.info.path = path

/-- No enclosing structure declares the name. -/
def Unenclosed (s : Scope) (name : String) : Prop :=
  ∀ outer ∈ s.enclosing, ¬ s.Declares (outer ++ "." ++ name)

/-- The declaration that a name chooses. -/
inductive Chooses (s : Scope) (name : String) : Declared → Prop
  /-- It is declared in an enclosing structure, but in none further inside. -/
  | enclosed {inner outer : List String} {path : String} {d : Declared}
      (around : s.enclosing = inner ++ path :: outer)
      (inside : ∀ p ∈ inner, ¬ s.Declares (p ++ "." ++ name))
      (mem : d ∈ s.declared) (eq : d.info.path = path ++ "." ++ name) : Chooses s name d
  /-- Otherwise, its path is the name. -/
  | whole {d : Declared} (unenclosed : s.Unenclosed name) (mem : d ∈ s.declared)
      (eq : d.info.path = name) : Chooses s name d
  /-- Otherwise, its path ends in the name, and every other one that does is longer. -/
  | ending {d : Declared} (unenclosed : s.Unenclosed name) (undeclared : ¬ s.Declares name)
      (mem : d ∈ s.declared) (ends : ∃ outer, d.info.path = outer ++ "." ++ name)
      (shortest : ∀ e ∈ s.declared, e ≠ d → (∃ outer, e.info.path = outer ++ "." ++ name) →
        d.info.path.length < e.info.path.length) : Chooses s name d

/-- What a name in an expression means. -/
def Means (s : Scope) (m : Mention) : Target → Prop
  | .field info => m.marked = false ∧ s.Chooses m.name ⟨info, true⟩
  | .external name =>
    name = m.name ∧ s.externals.allows name = true ∧
      (m.marked = false → ∀ path ∈ s.paths, ¬ Answers path name)

/-! ## The lookup -/

theorem atPath?_some {s : Scope} {path : String} {d : Declared} (h : s.atPath? path = some d) :
    d.info.path = path := by
  have hpath := List.find?_some h
  exact beq_iff_eq.mp hpath

theorem not_declares_of_atPath? {s : Scope} {path : String} (h : s.atPath? path = none) :
    ¬ s.Declares path := by
  rintro ⟨d, hd, hpath⟩
  exact List.find?_eq_none.mp h d hd (beq_iff_eq.mpr hpath)

/-- The structures around have paths. -/
def Titled (s : Scope) : Prop := ∀ path ∈ s.enclosing, path ≠ ""

/-- The path of a name inside a structure that has one. -/
theorem joinPath_eq {outer : String} (h : outer ≠ "") (name : String) :
    joinPath outer name = outer ++ "." ++ name := by
  rw [joinPath, if_neg (by rwa [String.isEmpty_iff])]

section

variable {s : Scope} {name : String}

theorem enclosed_step {outer : String} (h : outer ≠ "") :
    (if outer.isEmpty then none else s.atPath? (joinPath outer name)) =
      s.atPath? (outer ++ "." ++ name) := by
  rw [if_neg (by rwa [String.isEmpty_iff]), joinPath_eq h]

/-- A lookup in the open structures that finds nothing leaves the name to the last components. -/
theorem unenclosed_of_enclosed? (hs : s.Titled) (h : s.enclosed? name = none) :
    s.Unenclosed name := by
  intro outer houter
  have hnone := List.findSome?_eq_none_iff.mp h outer houter
  rw [enclosed_step (hs outer houter)] at hnone
  exact not_declares_of_atPath? hnone

/-- What the lookup in the open structures finds is what the name chooses. -/
theorem chooses_of_enclosed? (hs : s.Titled) {d : Declared} (h : s.enclosed? name = some d) :
    s.Chooses name d := by
  obtain ⟨inner, path, outer, hsplit, hpath, hinner⟩ := List.findSome?_eq_some_iff.mp h
  have htitled : ∀ p ∈ inner ++ path :: outer, p ≠ "" := hsplit ▸ hs
  rw [enclosed_step (htitled path (by simp))] at hpath
  refine .enclosed hsplit (fun p hp => ?_) (atPath?_mem hpath) (atPath?_some hpath)
  have hnone := hinner p hp
  rw [enclosed_step (htitled p (List.mem_append_left _ hp))] at hnone
  exact not_declares_of_atPath? hnone

/-- The only one with a shortest path is shorter than every other one whose path ends in the name. -/
theorem chooses_of_nearest (hunenclosed : s.Unenclosed name) (hundeclared : ¬ s.Declares name)
    {d : Declared} (h : s.nearest name = [d]) : s.Chooses name d := by
  have hmem : d ∈ s.nearest name := by
    rw [h]
    exact List.mem_singleton_self d
  obtain ⟨hfound, hleast⟩ := List.mem_filter.mp hmem
  obtain ⟨hd, hmatches⟩ := List.mem_filter.mp hfound
  have hends : ∀ e ∈ s.declared, pathMatches e.info.path name = true →
      ∃ outer, e.info.path = outer ++ "." ++ name := by
    intro e he hname
    exact (pathMatches_iff.mp hname).resolve_left fun heq => hundeclared ⟨e, he, heq⟩
  refine .ending hunenclosed hundeclared hd (hends d hd hmatches) fun e he hne hname => ?_
  have hfound' : e ∈ s.declared.filter fun d => pathMatches d.info.path name :=
    List.mem_filter.mpr ⟨he, pathMatches_iff.mpr (.inr hname)⟩
  have hle := decide_eq_true_eq.mp (List.all_eq_true.mp hleast e hfound')
  -- one of the same length would be as near, and `d` is the only one as near
  refine lt_of_le_of_ne hle fun hlength => hne ?_
  have hnear : e ∈ s.nearest name := by
    refine List.mem_filter.mpr ⟨hfound', List.all_eq_true.mpr fun e' he' => ?_⟩
    rw [← hlength]
    exact List.all_eq_true.mp hleast e' he'
  rw [h] at hnear
  exact List.mem_singleton.mp hnear

/-- What the lookup finds is what the name chooses. -/
theorem chooses_of_lookup (hs : s.Titled) {d : Declared} (h : s.lookup name = .ok (some d)) :
    s.Chooses name d := by
  unfold lookup at h
  cases henclosed : s.enclosed? name with
  | some d' =>
    rw [henclosed] at h
    cases h
    exact chooses_of_enclosed? hs henclosed
  | none =>
    have hunenclosed := unenclosed_of_enclosed? hs henclosed
    rw [henclosed] at h
    cases hwhole : s.atPath? name with
    | some d' =>
      rw [hwhole] at h
      cases h
      exact .whole hunenclosed (atPath?_mem hwhole) (atPath?_some hwhole)
    | none =>
      rw [hwhole] at h
      dsimp only [Option.orElse_eq_orElse, Option.orElse_none] at h
      split at h
      · cases h
      · rename_i d' hnearest
        cases h
        exact chooses_of_nearest hunenclosed (not_declares_of_atPath? hwhole) hnearest
      · cases h

/-- What a name stands for is what it means. -/
theorem resolve_means (hs : s.Titled) {e : Expr} (h : s.resolve name = .ok e) :
    ∃ t : Target, e = t.expr ∧ s.Means ⟨name, false⟩ t := by
  obtain ⟨found, hfound, h⟩ := except_bind_eq_ok.mp h
  cases found with
  | some d =>
    dsimp only at h
    split at h
    · rename_i hnumeric
      cases h
      have hchooses := chooses_of_lookup hs hfound
      rcases d with ⟨info, numeric⟩
      obtain rfl : numeric = true := hnumeric
      exact ⟨.field info, rfl, rfl, hchooses⟩
    · cases h
  | none =>
    dsimp only at h
    split at h
    · cases h
    · rename_i hpaths
      obtain ⟨hallows, rfl⟩ := external_eq_ok h
      refine ⟨.external name, rfl, rfl, hallows, fun _ path hpath hanswers => hpaths ?_⟩
      exact List.any_eq_true.mpr ⟨path, hpath, pathMatches_iff.mpr hanswers⟩

theorem external_means {e : Expr} (h : s.external name = .ok e) :
    ∃ t : Target, e = t.expr ∧ s.Means ⟨name, true⟩ t := by
  obtain ⟨hallows, rfl⟩ := external_eq_ok h
  exact ⟨.external name, rfl, rfl, hallows, fun hmarked => absurd hmarked (by simp)⟩

end

end Scope

end RecordLayout
