import RecordLayout.Proofs.Flat.Evaluators
import RecordLayout.Text.Utf8

/-!
# Names looked up by number

Where names are kept in tables, a name in an expression is looked up among the numbers of the names:
those of a path, or those whose path ends in it, which is decided by the byte in front of the end.
The numbers that are found are numbers of the tables, and they are the numbers of the declarations
that the scope finds.
-/

namespace RecordLayout

/-- What names are looked up in, with two tables for the names declared so far. -/
structure NameTables where
  externals : Externals
  /-- Every path of the script, declared so far or not. -/
  paths : List String
  /-- The paths of the enclosing structures, the innermost first. -/
  enclosing : List String
  names : List FieldInfo
  /-- For each name, whether it is a single integer. -/
  numeric : List Bool

/-- The tables of a scope. -/
def Scope.tables (s : Scope) : NameTables where
  externals := s.externals
  paths := s.paths
  enclosing := s.enclosing
  names := s.declared.map Declared.info
  numeric := s.declared.map Declared.numeric

/-- The path is the name or ends in it behind a point. -/
def checkedPathMatches (path name : String) : Halting Bool :=
  if path = name then pure true
  else if name.utf8ByteSize < path.utf8ByteSize ∧ name.toList.isSuffixOf path.toList then do
    let behind ← less path.utf8ByteSize name.utf8ByteSize
    let i ← less behind 1
    let byte ← entryAt (Text.Utf8.encode path) i
    pure (byte == 0x2E)
  else pure false

namespace NameTables

/-- The number of the name with exactly this path. -/
def atPath? (t : NameTables) (path : String) : Option Nat := t.names.findIdx? (·.path == path)

/-- The number of the name that an enclosing structure gives. -/
def enclosed? (t : NameTables) (name : String) : Option Nat :=
  t.enclosing.findSome? fun outer =>
    if outer.isEmpty then none else t.atPath? (joinPath outer name)

/-- The path with a number. -/
def pathAt (t : NameTables) (i : Nat) : Halting String := do
  let info ← entryAt t.names i
  pure info.path

/-- The number of the only shortest path among those that end in the name. -/
def nearest (t : NameTables) (position : Position) (name : String) : Halting (Option Nat) := do
  let candidates ← (List.range t.names.length).filterM fun i => do
    let path ← t.pathAt i
    checkedPathMatches path name
  let lengths ← candidates.mapM fun i => String.utf8ByteSize <$> t.pathAt i
  match lengths.min? with
  | none => pure none
  | some shortest =>
    let best ← candidates.filterM fun i => do
      let path ← t.pathAt i
      pure (path.utf8ByteSize == shortest)
    if 1 < best.length then do
      let paths ← best.mapM t.pathAt
      refuse (.ambiguous name paths) position
    else pure best.head?

/-- The number of the name that is meant, if there is one among those met so far. -/
def lookup (t : NameTables) (position : Position) (name : String) : Halting (Option Nat) :=
  match t.enclosed? name <|> t.atPath? name with
  | some i => pure (some i)
  | none => t.nearest position name

/-- An external name, if the options allow it. -/
def external (t : NameTables) (position : Position) (name : String) : Halting Evaluator :=
  if t.externals.allows name then pure (.external name) else refuse (.unknownField name) position

/-- What a name stands for. -/
def resolve (t : NameTables) (position : Position) (name : String) : Halting Evaluator := do
  match ← t.lookup position name with
  | some i =>
    let numeric ← entryAt t.numeric i
    if numeric then pure (.field i)
    else do
      let info ← entryAt t.names i
      refuse (.notNumeric info.path) position
  | none =>
    let later ← t.paths.anyM fun path => checkedPathMatches path name
    if later then refuse (.usedBeforeDeclared name) position else t.external position name

/-- The names of the tables. -/
def checked (t : NameTables) (position : Position) : CheckedNames :=
  ⟨t.resolve position, t.external position⟩

end NameTables

/-! ## The byte in front of a name -/

/-- No character but the point ends in the byte of a point. -/
theorem getLast?_encodeChar (c : Char) :
    (String.utf8EncodeChar c).getLast? = some 0x2E ↔ c = '.' := by
  constructor
  · intro h
    have hbyte : ∀ n : Nat, n < 256 → UInt8.ofNat n = 0x2E → n = 0x2E := by
      intro n hn heq
      have hnat := congrArg UInt8.toNat heq
      rwa [UInt8.toNat_ofNat', Nat.mod_eq_of_lt hn] at hnat
    unfold String.utf8EncodeChar at h
    dsimp only at h
    split at h
    · rename_i hone
      have hval := hbyte _ (by omega) (Option.some.inj h)
      exact Char.ext (UInt32.toNat.inj hval)
    all_goals
      repeat' split at h
      all_goals exact absurd (hbyte _ (by omega) (Option.some.inj h)) (by omega)
  · rintro rfl
    rfl

namespace Text.Utf8

theorem encode_append (a b : String) : encode (a ++ b) = encode a ++ encode b := by
  rw [encode, String.toList_append, List.flatMap_append]
  rfl

theorem length_encode (text : String) : (encode text).length = text.utf8ByteSize := by
  rw [encode, ← String.ofList_toList (s := text), String.utf8ByteSize_ofList, String.toList_ofList]
  induction text.toList with
  | nil => rfl
  | cons c cs ih =>
    rw [List.flatMap_cons, List.length_append, String.length_utf8EncodeChar, ih,
      String.utf8Len_cons, Nat.add_comm]

/-- The byte in front of the end of a text is the last one of the character there. -/
theorem encode_front (before : List Char) (c : Char) (name : String) :
    (encode (String.ofList (before ++ [c]) ++ name))[(String.ofList (before ++ [c])).utf8ByteSize
      - 1]? = (String.utf8EncodeChar c).getLast? := by
  have hsplit : encode (String.ofList (before ++ [c])) =
      encode (String.ofList before) ++ String.utf8EncodeChar c := by
    rw [String.ofList_append, encode_append]
    congr 1
    simp [encode]
  have hpos := c.utf8Size_pos
  rw [encode_append, ← length_encode, hsplit, List.append_assoc, List.length_append,
    String.length_utf8EncodeChar, List.getElem?_append_right (by omega),
    List.getElem?_append_left (by rw [String.length_utf8EncodeChar]; omega),
    List.getLast?_eq_getElem?, String.length_utf8EncodeChar]
  congr 1
  omega

end Text.Utf8

/-- A text ends in a point and a name if there is a point in front of the name. -/
theorem point_suffix_iff (front name : List Char) (c : Char) :
    '.' :: name <:+ front ++ c :: name ↔ c = '.' := by
  constructor
  · intro hsuffix
    have hsame := List.suffix_of_suffix_length_le hsuffix (List.suffix_append front (c :: name))
      (le_refl _)
    exact (List.cons.inj (hsame.eq_of_length rfl)).1.symm
  · rintro rfl
    exact List.suffix_append _ _

/-- A path that ends in a point and a name is longer than the name and ends in it. -/
theorem longer_of_point_suffix {path name : String}
    (h : ('.' :: name.toList).isSuffixOf path.toList = true) :
    name.utf8ByteSize < path.utf8ByteSize ∧ name.toList.isSuffixOf path.toList = true := by
  obtain ⟨before, hbefore⟩ := List.isSuffixOf_iff_suffix.mp h
  refine ⟨?_, List.isSuffixOf_iff_suffix.mpr ⟨before ++ ['.'], by simp [hbefore]⟩⟩
  have hpath : path = String.ofList (before ++ ['.']) ++ name := by
    rw [← String.toList_inj, String.toList_append, String.toList_ofList, ← hbefore,
      List.append_assoc, List.singleton_append]
  have hpoint : String.utf8Len ['.'] = 1 := rfl
  rw [hpath, String.utf8ByteSize_append, String.utf8ByteSize_ofList, String.utf8Len_append]
  omega

/-- The byte in front of the name that a longer path ends in tells whether a point is there. -/
theorem exists_byte {front : List Char} {c : Char} {path name : String}
    (hpath : path = String.ofList (front ++ [c]) ++ name) :
    ∃ byte, (Text.Utf8.encode path)[(String.ofList (front ++ [c])).utf8ByteSize - 1]? = some byte ∧
      (byte == 0x2E) = ('.' :: name.toList).isSuffixOf path.toList := by
  have hbyte := Text.Utf8.encode_front front c name
  have hiff := getLast?_encodeChar c
  rw [← hpath] at hbyte
  cases hlast : (String.utf8EncodeChar c).getLast? with
  | none =>
    have hpos := c.utf8Size_pos
    rw [List.getLast?_eq_none_iff, ← List.length_eq_zero_iff, String.length_utf8EncodeChar] at hlast
    omega
  | some byte =>
    rw [hlast] at hbyte hiff
    rw [Option.some.injEq] at hiff
    refine ⟨byte, hbyte, ?_⟩
    rw [Bool.eq_iff_iff, beq_iff_eq, hiff, List.isSuffixOf_iff_suffix, hpath, String.toList_append,
      String.toList_ofList, List.append_assoc, List.singleton_append, point_suffix_iff]

/-- What the byte decides is whether the path ends in a point and the name. -/
theorem checkedPathMatches_eq (path name : String) :
    checkedPathMatches path name = .ok (pathMatches path name) := by
  unfold checkedPathMatches
  split
  · rename_i heq
    simp [pathMatches, heq]
    rfl
  · rename_i hne
    have hmatches : pathMatches path name = ('.' :: name.toList).isSuffixOf path.toList := by
      simp [pathMatches, hne]
    rw [hmatches]
    split
    · rename_i hlonger
      obtain ⟨before, hbefore⟩ := List.isSuffixOf_iff_suffix.mp hlonger.2
      have hpath : path = String.ofList before ++ name := by
        rw [← String.toList_inj, String.toList_append, String.toList_ofList, hbefore]
      rcases List.eq_nil_or_concat before with rfl | ⟨front, c, rfl⟩
      · simp [hpath] at hne
      rw [List.concat_eq_append] at hpath
      obtain ⟨byte, hbyte, hpoint⟩ := exists_byte hpath
      have hsize : path.utf8ByteSize - name.utf8ByteSize =
          (String.ofList (front ++ [c])).utf8ByteSize := by
        rw [hpath, String.utf8ByteSize_append, Nat.add_sub_cancel]
      have hpos : 1 ≤ (String.ofList (front ++ [c])).utf8ByteSize := by
        rw [← hsize]
        omega
      have hbehind : less path.utf8ByteSize name.utf8ByteSize =
          .ok (String.ofList (front ++ [c])).utf8ByteSize := by
        rw [less_eq_ok hlonger.1.le, hsize]
      simp only [hbehind, less_eq_ok hpos, entryAt_eq_ok hbyte, bind, Except.bind, hpoint]
      rfl
    · rename_i hshort
      have hno : ('.' :: name.toList).isSuffixOf path.toList = false := by
        rw [Bool.eq_false_iff]
        exact fun hsuffix => hshort (longer_of_point_suffix hsuffix)
      rw [hno]
      rfl

/-! ## Numbers of declarations -/

/-- The numbers are those of the declarations. -/
def Points (declared : List Declared) : List Nat → List Declared → Prop :=
  List.Forall₂ fun i d => declared[i]? = some d

namespace Points

variable {declared ds : List Declared} {numbers : List Nat}

/-- The numbers of all declarations point to them, in their order. -/
theorem range (declared : List Declared) :
    Points declared (List.range declared.length) declared := by
  rw [Points, List.forall₂_iff_get]
  refine ⟨List.length_range, fun i h₁ h₂ => ?_⟩
  simp

/-- A question to each number that is answered by the declaration it points to. -/
theorem mapM {α : Type} {q : Nat → Halting α} {g : Declared → α}
    (h : Points declared numbers ds)
    (hq : ∀ i d, declared[i]? = some d → q i = .ok (g d)) :
    numbers.mapM q = .ok (ds.map g) := by
  induction h with
  | nil => rfl
  | @cons i d numbers ds hd _ ih =>
    rw [List.mapM_cons, hq i d hd, ih]
    rfl

/-- A loop that keeps numbers keeps those of the declarations that are kept, in front of what it has
found. -/
theorem filterAuxM {q : Nat → Halting Bool} {p : Declared → Bool}
    (h : Points declared numbers ds)
    (hq : ∀ i d, declared[i]? = some d → q i = .ok (p d)) (found : List Nat)  :
    ∃ kept, numbers.filterAuxM q found = .ok (kept.reverse ++ found) ∧
      Points declared kept (ds.filter p) := by
  induction h generalizing found with
  | nil => exact ⟨[], rfl, .nil⟩
  | @cons i d numbers ds hd _ ih =>
    cases hp : p d with
    | true =>
      obtain ⟨kept, hkept, hpoints⟩ := ih (i :: found)
      refine ⟨i :: kept, ?_, ?_⟩
      · simp only [List.filterAuxM, hq i d hd, hp, bind, Except.bind, cond_true, hkept]
        simp
      · rw [List.filter_cons_of_pos hp]
        exact .cons hd hpoints
    | false =>
      obtain ⟨kept, hkept, hpoints⟩ := ih found
      refine ⟨kept, ?_, ?_⟩
      · simp only [List.filterAuxM, hq i d hd, hp, bind, Except.bind, cond_false, hkept]
      · rw [List.filter_cons_of_neg (by simp [hp])]
        exact hpoints

/-- A filter of numbers points to the filter of the declarations. -/
theorem filterM {q : Nat → Halting Bool} {p : Declared → Bool}
    (h : Points declared numbers ds)
    (hq : ∀ i d, declared[i]? = some d → q i = .ok (p d)) :
    ∃ kept, numbers.filterM q = .ok kept ∧ Points declared kept (ds.filter p) := by
  obtain ⟨kept, hkept, hpoints⟩ := h.filterAuxM hq []
  refine ⟨kept, ?_, hpoints⟩
  rw [List.filterM, hkept, List.append_nil]
  simp [bind, Except.bind, pure, Except.pure]

end Points

/-! ## Names of a scope -/

/-- No name has the path of another, and paths have as many bytes as characters. -/
structure Scope.Tidy (s : Scope) : Prop where
  nodup : (s.declared.map Declared.info).Nodup
  narrow : ∀ d ∈ s.declared, d.info.path.utf8ByteSize = d.info.path.length

namespace Scope

variable {s : Scope}

/-- The number that is found, if one is, is that of the declaration that is. -/
def Finds (s : Scope) : Option Declared → Option Nat → Prop :=
  Option.Rel fun d i => s.declared[i]? = some d

/-- The declaration at a path has the number found at that path. -/
theorem finds_atPath (path : String) : s.Finds (s.atPath? path) (s.tables.atPath? path) := by
  have hfind : s.atPath? path = (s.tables.atPath? path).bind (s.declared[·]?) := by
    rw [atPath?, List.find?_eq_bind_findIdx?_getElem?, NameTables.atPath?, tables,
      List.findIdx?_map]
    rfl
  rw [hfind]
  cases hnumber : s.tables.atPath? path with
  | none => exact .none
  | some i =>
    obtain ⟨hlt, -⟩ := List.findIdx?_eq_some_iff_getElem.mp hnumber
    rw [tables, List.length_map] at hlt
    rw [Option.bind_some, List.getElem?_eq_getElem hlt]
    exact .some (List.getElem?_eq_getElem hlt)

theorem finds_orElse {found found' : Option Declared} {number number' : Option Nat}
    (h : s.Finds found number) (h' : s.Finds found' number') :
    s.Finds (found <|> found') (number <|> number') := by
  cases h with
  | none => exact h'
  | some hd => exact .some hd

/-- A name is found by its number from the open structures outwards. -/
theorem finds_enclosed (name : String) :
    s.Finds (s.enclosed? name) (s.tables.enclosed? name) := by
  unfold enclosed? NameTables.enclosed?
  have henclosing : s.tables.enclosing = s.enclosing := rfl
  rw [henclosing]
  induction s.enclosing with
  | nil => exact .none
  | cons outer more ih =>
    rw [List.findSome?_cons, List.findSome?_cons]
    have hhere : s.Finds (if outer.isEmpty then none else s.atPath? (joinPath outer name))
        (if outer.isEmpty then none else s.tables.atPath? (joinPath outer name)) := by
      split
      · exact .none
      · exact finds_atPath _
    generalize (if outer.isEmpty then none else s.atPath? (joinPath outer name)) = found,
      (if outer.isEmpty then none else s.tables.atPath? (joinPath outer name)) = number at hhere
    cases hhere with
    | none => exact ih
    | some hd => exact .some hd

/-- The path of a declaration is in the table where its number says. -/
theorem pathAt_eq {i : Nat} {d : Declared} (h : s.declared[i]? = some d) :
    s.tables.pathAt i = .ok d.info.path := by
  have hinfo : s.tables.names[i]? = some d.info := by
    rw [tables, List.getElem?_map, h]
    rfl
  rw [NameTables.pathAt, entryAt_eq_ok hinfo]
  rfl

/-- The least of some lengths is that of the paths that no other is shorter than. -/
theorem filter_shortest {ds : List Declared} {shortest : Nat}
    (hnarrow : ∀ d ∈ ds, d.info.path.utf8ByteSize = d.info.path.length)
    (h : (ds.map fun d => d.info.path.utf8ByteSize).min? = some shortest) :
    ds.filter (fun d => d.info.path.utf8ByteSize == shortest) =
      ds.filter fun d => ds.all fun e => d.info.path.length ≤ e.info.path.length := by
  obtain ⟨hmem, hleast⟩ := List.min?_eq_some_iff.mp h
  obtain ⟨d₀, hd₀, hshortest⟩ := List.mem_map.mp hmem
  apply List.filter_congr
  intro d hd
  rw [Bool.eq_iff_iff, beq_iff_eq, List.all_eq_true]
  constructor
  · intro heq e he
    rw [decide_eq_true_eq, ← hnarrow d hd, ← hnarrow e he, heq]
    exact hleast _ (List.mem_map_of_mem he)
  · intro hall
    have hle := decide_eq_true_eq.mp (hall d₀ hd₀)
    rw [← hnarrow d hd, ← hnarrow d₀ hd₀, hshortest] at hle
    exact le_antisymm hle (hleast _ (List.mem_map_of_mem hd))

theorem exists_shortest {ds : List Declared} {shortest : Nat}
    (h : (ds.map fun d => d.info.path.utf8ByteSize).min? = some shortest) :
    ds.filter (fun d => d.info.path.utf8ByteSize == shortest) ≠ [] := by
  obtain ⟨hmem, -⟩ := List.min?_eq_some_iff.mp h
  obtain ⟨d, hd, hshortest⟩ := List.mem_map.mp hmem
  exact List.ne_nil_of_mem (List.mem_filter.mpr ⟨hd, beq_iff_eq.mpr hshortest⟩)

variable (hs : s.Tidy) (position : Position) (name : String)
include hs

/-- The number of the nearest declaration is found, or the name is ambiguous for the tables too. -/
theorem nearest_agrees :
    Agrees position s.Finds
      (match s.nearest name with
        | [] => .ok none
        | [d] => .ok (some d)
        | ds => .error (.ambiguous name (ds.map (·.info.path))))
      (s.tables.nearest position name) := by
  have hlength : s.tables.names.length = s.declared.length := List.length_map _
  have hmatches : ∀ i d, s.declared[i]? = some d → (do
      let path ← s.tables.pathAt i
      checkedPathMatches path name) = .ok (pathMatches d.info.path name) := by
    intro i d hd
    rw [pathAt_eq hd]
    exact checkedPathMatches_eq d.info.path name
  obtain ⟨candidates, hcandidates, hpoints⟩ := (Points.range s.declared).filterM hmatches
  have hlengths := hpoints.mapM (g := fun d => d.info.path.utf8ByteSize)
    (q := fun i => String.utf8ByteSize <$> s.tables.pathAt i) fun i d hd => by
      rw [pathAt_eq hd]
      rfl
  rw [NameTables.nearest, hlength, hcandidates, ok_bind, hlengths, ok_bind]
  have hnearest : s.nearest name = (s.declared.filter fun d => pathMatches d.info.path name).filter
      fun d => (s.declared.filter fun d => pathMatches d.info.path name).all fun e =>
        d.info.path.length ≤ e.info.path.length := rfl
  rw [hnearest]
  generalize hfound : s.declared.filter (fun d => pathMatches d.info.path name) = found at *
  have hnarrow : ∀ d ∈ found, d.info.path.utf8ByteSize = d.info.path.length := by
    intro d hd
    rw [← hfound] at hd
    exact hs.narrow d (List.mem_of_mem_filter hd)
  cases hmin : (found.map fun d => d.info.path.utf8ByteSize).min? with
  | none =>
    rw [List.min?_eq_none_iff, List.map_eq_nil_iff] at hmin
    subst hmin
    exact Agrees.pure .none
  | some shortest =>
    have hequal : ∀ i d, s.declared[i]? = some d → (do
        let path ← s.tables.pathAt i
        pure (path.utf8ByteSize == shortest)) =
          Except.ok (ε := Halted) (d.info.path.utf8ByteSize == shortest) := by
      intro i d hd
      rw [pathAt_eq hd]
      rfl
    obtain ⟨best, hbest, hbestPoints⟩ := hpoints.filterM hequal
    have hsome := exists_shortest hmin
    rw [filter_shortest hnarrow hmin] at hbestPoints hsome
    dsimp only
    rw [hbest, ok_bind]
    generalize found.filter (fun d => found.all fun e =>
      decide (d.info.path.length ≤ e.info.path.length)) = near at hbestPoints hsome
    have hpaths := hbestPoints.mapM (g := fun d => d.info.path) fun i d hd => pathAt_eq hd
    cases hbestPoints with
    | nil => exact absurd rfl hsome
    | cons hd hmore =>
      cases hmore with
      | nil => exact Agrees.pure (.some hd)
      | cons hd' hmore =>
        rw [if_pos (by simp), hpaths, ok_bind]
        exact Agrees.refuse _

/-- A name is looked up among numbers as it is among declarations, and ambiguity is refused in both.
-/
theorem lookup_agrees :
    Agrees position s.Finds (s.lookup name) (s.tables.lookup position name) := by
  have hfinds := finds_orElse (finds_enclosed (s := s) name) (finds_atPath name)
  unfold lookup NameTables.lookup
  generalize (s.enclosed? name <|> s.atPath? name) = found,
    (s.tables.enclosed? name <|> s.tables.atPath? name) = number at hfinds
  cases hfinds with
  | none => exact nearest_agrees hs position name
  | some hd => exact Agrees.pure (.some hd)

omit hs in
theorem external_agrees :
    Agrees position (Evaluator.Shows (s.declared.map Declared.info)) (s.external name)
      (s.tables.external position name) := by
  unfold external NameTables.external
  have hexternals : s.tables.externals = s.externals := rfl
  rw [hexternals]
  split
  · exact Agrees.pure rfl
  · exact Agrees.refuse _

omit hs in
/-- The ends of the paths are compared by bytes without a fault. -/
theorem anyM_pathMatches (paths : List String) :
    (paths.anyM fun path => checkedPathMatches path name) = .ok (paths.any (pathMatches · name)) := by
  induction paths with
  | nil => rfl
  | cons path paths ih =>
    rw [List.anyM_cons, checkedPathMatches_eq, ok_bind, ih, List.any_cons]
    cases pathMatches path name <;> rfl

/-- A name stands for the same in the tables, a field by its number. -/
theorem resolve_agrees :
    Agrees position (Evaluator.Shows (s.declared.map Declared.info)) (s.resolve name)
      (s.tables.resolve position name) := by
  apply (lookup_agrees hs position name).bind
  intro found number _ hfinds
  cases hfinds with
  | none =>
    dsimp only
    have hpaths : s.tables.paths = s.paths := rfl
    rw [hpaths, anyM_pathMatches, ok_bind]
    split
    · exact Agrees.refuse _
    · exact external_agrees position name
  | @some d i hd =>
    have hnumeric : s.tables.numeric[i]? = some d.numeric := by
      rw [tables, List.getElem?_map, hd]
      rfl
    have hinfo : (s.declared.map Declared.info)[i]? = some d.info := by
      rw [List.getElem?_map, hd]
      rfl
    dsimp only
    rw [entryAt_eq_ok hnumeric, ok_bind]
    split
    · apply Agrees.pure
      obtain ⟨hlt, hget⟩ := List.getElem?_eq_some_iff.mp hinfo
      rw [Evaluator.Shows, Evaluator.ofExpr, ← hget, hs.nodup.idxOf_getElem]
    · have hentry : entryAt s.tables.names i = .ok d.info := entryAt_eq_ok hinfo
      rw [hentry, ok_bind]
      exact Agrees.refuse _

/-- All names of a scope stand for the same in its tables. -/
theorem checked_answer :
    (s.tables.checked position).Answer (s.declared.map Declared.info) position s.names where
  field := resolve_agrees hs position
  external := external_agrees position

end Scope

end RecordLayout
