import RecordLayout.Proofs.Behind.Shifting
import RecordLayout.Proofs.Names.References

/-!
# Names further back

A script may stand behind another one. As long as its names have nothing to do with what the one in
front declares, they stand for the same declarations as they do alone, only with later indexes, and
every width, length and count is the same.
-/

namespace RecordLayout

/-- What the first computation gives, the second one gives changed. -/
def Transfers {ε α β : Type} (f : α → β) (x : Except ε α) (y : Except ε β) : Prop :=
  ∀ a, x = .ok a → y = .ok (f a)

namespace Transfers

variable {ε α α' β β' : Type}

theorem ok (f : α → β) (a : α) : Transfers f (.ok a : Except ε α) (.ok (f a)) := by
  rintro _ ⟨⟩
  rfl

theorem ok_of_eq {f : α → β} {a : α} {b : β} (h : f a = b) :
    Transfers f (.ok a : Except ε α) (.ok b) := by
  rw [← h]
  exact ok f a

/-- Of an error nothing is said: only what is found has to be found behind the other layout too. -/
theorem error (f : α → β) (e : ε) (y : Except ε β) : Transfers f (.error e) y := by
  rintro _ ⟨⟩

theorem refl (x : Except ε α) : Transfers id x x := fun _ h => h

theorem bind {f : α → β} {g : α' → β'} {x : Except ε α} {y : Except ε β} {u : α → Except ε α'}
    {v : β → Except ε β'} (hxy : Transfers f x y) (huv : ∀ a, Transfers g (u a) (v (f a))) :
    Transfers g (x >>= u) (y >>= v) := by
  intro c hc
  obtain ⟨a, ha, hc⟩ := except_bind_eq_ok.mp hc
  exact except_bind_eq_ok.mpr ⟨f a, hxy a ha, huv a c hc⟩

theorem map {f : α → β} {g : α' → β'} {x : Except ε α} {y : Except ε β} {u : α → α'} {v : β → β'}
    (hxy : Transfers f x y) (huv : ∀ a, v (f a) = g (u a)) : Transfers g (u <$> x) (v <$> y) := by
  rw [map_eq_pure_bind, map_eq_pure_bind]
  exact hxy.bind fun a => ok_of_eq (huv a).symm

end Transfers

/-! ## Scopes -/

/-- A name matches the path that it has inside a structure. -/
theorem pathMatches_joinPath (outer name : String) :
    pathMatches (joinPath outer name) name = true := by
  rw [pathMatches_iff]
  unfold joinPath
  split
  · exact .inl rfl
  · exact .inr ⟨outer, rfl⟩

namespace Scope

/-- The second scope is the first one behind some declarations that are not in it. -/
structure Behind (k : Nat) (front : List Declared) (s s' : Scope) : Prop where
  externals : s'.externals = s.externals
  enclosing : s'.enclosing = s.enclosing
  declared : s'.declared = front ++ s.declared.map (Declared.shift k)

/-- The name matches no path that is not in the first scope. -/
structure Foreign (front : List Declared) (s s' : Scope) (name : String) : Prop where
  declared : ∀ d ∈ front, pathMatches d.info.path name = false
  paths : ∀ path ∈ s'.paths, pathMatches path name = true → path ∈ s.paths

variable {k : Nat} {front : List Declared} {s s' : Scope} {name : String}

theorem Behind.atPath? (h : s.Behind k front s') {path : String}
    (hfront : ∀ d ∈ front, d.info.path ≠ path) :
    s'.atPath? path = (s.atPath? path).map (Declared.shift k) := by
  have hnone : front.find? (·.info.path == path) = none :=
    List.find?_eq_none.mpr fun d hd => by simpa using hfront d hd
  rw [Scope.atPath?, h.declared, List.find?_append, hnone, Option.none_or, List.find?_map]
  rfl

/-- A name that the other layout does not answer is the path of none of its declarations. -/
theorem Foreign.path_ne (h : Foreign front s s' name) {path : String}
    (hpath : pathMatches path name = true) : ∀ d ∈ front, d.info.path ≠ path := by
  rintro d hd rfl
  rw [h.declared d hd] at hpath
  cases hpath

/-- The structures around a name are searched with the same result, further back. -/
theorem Behind.enclosed? (h : s.Behind k front s') (hname : Foreign front s s' name) :
    s'.enclosed? name = (s.enclosed? name).map (Declared.shift k) := by
  unfold Scope.enclosed?
  rw [h.enclosing]
  induction s.enclosing with
  | nil => rfl
  | cons outer enclosing ih =>
    rw [List.findSome?_cons, List.findSome?_cons]
    by_cases hempty : outer.isEmpty = true
    · simpa only [hempty, if_true] using ih
    · simp only [hempty]
      rw [h.atPath? (hname.path_ne (pathMatches_joinPath outer name))]
      cases s.atPath? (joinPath outer name) with
      | none => exact ih
      | some d => rfl

/-- The declarations before a name are searched backwards, and those of the other layout do not
match. -/
theorem Behind.nearest (h : s.Behind k front s') (hname : Foreign front s s' name) :
    s'.nearest name = (s.nearest name).map (Declared.shift k) := by
  have hfront : front.filter (fun d => pathMatches d.info.path name) = [] :=
    List.filter_eq_nil_iff.mpr fun d hd => by simp [hname.declared d hd]
  unfold Scope.nearest
  rw [h.declared, List.filter_append, hfront, List.nil_append, List.filter_map, List.filter_map]
  congr 1
  refine List.filter_congr fun d _ => ?_
  simp only [Function.comp_apply, List.all_map]
  rfl

/-- The same declaration is found. -/
theorem Behind.lookup (h : s.Behind k front s') (hname : Foreign front s s' name) :
    Transfers (Option.map (Declared.shift k)) (s.lookup name) (s'.lookup name) := by
  have hwhole : pathMatches name name = true := pathMatches_iff.mpr (.inl rfl)
  unfold Scope.lookup
  rw [h.enclosed? hname, h.atPath? (hname.path_ne hwhole), h.nearest hname]
  cases s.enclosed? name with
  | some d => exact .ok _ _
  | none =>
    cases s.atPath? name with
    | some d => exact .ok _ _
    | none =>
      rcases s.nearest name with _ | ⟨d, _ | ⟨e, more⟩⟩
      · exact .ok _ _
      · exact .ok _ _
      · exact .error _ _ _

/-- An external name does not depend on the scope that it is looked up in. -/
theorem Behind.external (h : s.Behind k front s') (name : String) :
    Transfers (Expr.shift k) (s.external name) (s'.external name) := by
  unfold Scope.external
  rw [h.externals]
  split
  · exact .ok _ _
  · exact .error _ _ _

/-- A name stands for the same field, which is further back. -/
theorem Behind.resolve (h : s.Behind k front s') (hname : Foreign front s s' name) :
    Transfers (Expr.shift k) (s.resolve name) (s'.resolve name) := by
  refine (h.lookup hname).bind fun found => ?_
  cases found with
  | some d =>
    dsimp only [Option.map_some]
    split
    · rename_i hnumeric
      rw [if_pos (show (d.shift k).numeric = true from hnumeric)]
      exact .ok _ _
    · exact .error _ _ _
  | none =>
    dsimp only [Option.map_none]
    split
    · exact .error _ _ _
    · rename_i hpaths
      have hpaths' : ¬ s'.paths.any (pathMatches · name) = true := by
        rw [List.any_eq_true] at hpaths ⊢
        rintro ⟨path, hpath, hmatches⟩
        exact hpaths ⟨path, hname.paths path hpath hmatches, hmatches⟩
      rw [if_neg hpaths']
      exact h.external name

end Scope

/-! ## Expressions -/

/-- What a name in an expression stands for. -/
def Names.meaning (names : Names) (m : Mention) : Except Script.Cause Expr :=
  if m.marked then names.external m.name else names.field m.name

/-- What the names stand for is the same further back. -/
def Names.Transfer (k : Nat) (names names' : Names) (mentions : List Mention) : Prop :=
  ∀ m ∈ mentions, Transfers (Expr.shift k) (names.meaning m) (names'.meaning m)

theorem Names.Transfer.left {k : Nat} {names names' : Names} {ms ms' : List Mention}
    (h : names.Transfer k names' (ms ++ ms')) : names.Transfer k names' ms :=
  fun m hm => h m (List.mem_append_left _ hm)

theorem Names.Transfer.right {k : Nat} {names names' : Names} {ms ms' : List Mention}
    (h : names.Transfer k names' (ms ++ ms')) : names.Transfer k names' ms' :=
  fun m hm => h m (List.mem_append_right _ hm)

/-- The names that have nothing to do with what is declared elsewhere. -/
theorem Scope.Behind.transfer {k : Nat} {front : List Declared} {s s' : Scope}
    (h : s.Behind k front s') {mentions : List Mention}
    (hforeign : ∀ m ∈ mentions, m.marked = false → Foreign front s s' m.name) :
    s.names.Transfer k s'.names mentions := by
  intro m hm
  unfold Names.meaning
  cases hmarked : m.marked with
  | true => exact h.external m.name
  | false => exact h.resolve (hforeign m hm hmarked)

section

variable {k : Nat} {names names' : Names}

/-- A numeral is the same constant wherever it stands. -/
theorem Term.shift_of_numeral {base : Nat} {digits : String} {e : Expr}
    (h : numeral base digits = some e) : e.shift k = e := by
  simp only [numeral, Option.ite_none_right_eq_some, Option.some.injEq] at h
  rw [← h.2]
  rfl

/-- A term of names that are transferred becomes the same expression with its fields further back.
-/
theorem Term.resolve_transfers {t : Term} (h : names.Transfer k names' t.mentions) :
    Transfers (Expr.shift k) (t.resolve names) (t.resolve names') := by
  induction t with
  | decimal text =>
    rw [resolve, resolve]
    cases hnumeral : numeral 10 text with
    | none => exact .error _ _ _
    | some e => exact Transfers.ok_of_eq (shift_of_numeral hnumeral)
  | hex mark digits =>
    rw [resolve, resolve]
    cases hnumeral : numeral 16 digits with
    | none => exact .error _ _ _
    | some e => exact Transfers.ok_of_eq (shift_of_numeral hnumeral)
  | counter => exact .ok _ _
  | external name => exact h ⟨name, true⟩ (List.mem_singleton_self _)
  | name name => exact h ⟨name, false⟩ (List.mem_singleton_self _)
  | plus t ih | group t ih => exact ih h
  | unary op t ih =>
    refine (ih h).bind fun e => ?_
    rw [Expr.foldUnary_shift]
    exact .ok _ _
  | binary op l r ihl ihr =>
    refine (ihl h.left).bind fun a => (ihr h.right).bind fun b => ?_
    rw [Expr.foldBinary_shift]
    cases Expr.foldBinary op a b with
    | some e => exact .ok _ _
    | none => exact .error _ _ _

/-- The text of an expression is read the same way wherever its names are looked up. -/
theorem Expr.ofText_transfers {text : String} (h : names.Transfer k names' (Script.mentions text)) :
    Transfers (Expr.shift k) (Expr.ofText names text) (Expr.ofText names' text) := by
  unfold Script.mentions at h
  unfold Expr.ofText
  cases hterm : Term.ofText text with
  | error attempts => exact .error _ _ _
  | ok t =>
    rw [hterm] at h
    exact Term.resolve_transfers h

end

/-! ## Declarations -/

namespace LayoutBuilder

variable {k : Nat} {scope scope' : Scope}

/-- The names in these texts stand for the same further back. -/
abbrev Reaches (k : Nat) (scope scope' : Scope) (texts : List String) : Prop :=
  scope.names.Transfer k scope'.names (texts.flatMap Script.mentions)

theorem ofText_transfers {text : String} (h : Reaches k scope scope' [text]) :
    Transfers (Expr.shift k) (Expr.ofText scope.names text) (Expr.ofText scope'.names text) := by
  rw [Reaches, List.flatMap_singleton] at h
  exact Expr.ofText_transfers h

theorem constant_transfers (kind : Kind) (n : Int64) :
    Transfers (Amount.shift k) (constant kind n) (constant kind n) := by
  unfold constant
  split
  · exact .error _ _ _
  · split
    · exact .error _ _ _
    · split
      · exact .error _ _ _
      · split
        · exact .ok _ _
        · exact .error _ _ _

/-- A parameter is a number or the text of an expression, and only the text is looked up. -/
theorem amount_transfers (kind : Kind) {extra : Script.Extra}
    (h : Reaches k scope scope' extra.text?.toList) :
    Transfers (Amount.shift k) (amount scope kind extra) (amount scope' kind extra) := by
  cases extra with
  | number n => exact constant_transfers kind _
  | expression text =>
    refine (ofText_transfers h).bind fun e => ?_
    cases e with
    | const n => exact constant_transfers kind n
    | _ => exact .ok _ _

theorem amountOrOne_transfers (kind : Kind) {extra : Option Script.Extra}
    (h : Reaches k scope scope' (extra.bind Script.Extra.text?).toList) :
    Transfers (Amount.shift k) (amountOrOne scope kind extra) (amountOrOne scope' kind extra) := by
  cases extra with
  | none => exact .ok _ _
  | some extra => exact amount_transfers kind h

theorem computedAmount_transfers {extra : Option Script.Extra}
    (h : Reaches k scope scope' (extra.bind Script.Extra.text?).toList) :
    Transfers (Amount.shift k) (computedAmount scope extra) (computedAmount scope' extra) := by
  rcases extra with _ | n | text
  · exact .error _ _ _
  · exact .ok _ _
  · exact (ofText_transfers h).map fun _ => rfl

theorem arrayLength_transfers (repeated : Bool) {size : Option Script.Size}
    (h : Reaches k scope scope' (size.bind Script.Size.text?).toList) :
    Transfers (Option.map (Length.shift k)) (arrayLength scope repeated size)
      (arrayLength scope' repeated size) := by
  rcases size with _ | _ | text
  · exact .ok _ _
  · unfold arrayLength
    dsimp only
    split
    · exact .error _ _ _
    · exact .ok _ _
  · refine (ofText_transfers h).bind fun e => ?_
    cases e with
    | const n =>
      dsimp only [Expr.shift]
      split
      · exact .ok _ _
      · exact .error _ _ _
    | _ => exact .ok _ _

/-- The type of a field has its parameter for its only reference to other fields. -/
theorem elementType_transfers (options : CompileOptions) {decl : Script.FieldDecl}
    (h : Reaches k scope scope' (decl.extra.bind Script.Extra.text?).toList)
    (type : Option BuiltIn) :
    Transfers (ElementType.shift k) (elementType scope options decl type)
      (elementType scope' options decl type) := by
  unfold elementType
  split
  · exact (Transfers.refl _).bind fun _ => .ok _ _
  · exact (amountOrOne_transfers _ h).map fun _ => rfl
  · exact (Transfers.refl _).bind fun _ => .ok _ _
  · refine (Transfers.refl _).bind fun use => ?_
    cases hextra : decl.extra with
    | none => exact .ok _ _
    | some extra =>
      rw [hextra] at h
      exact (amount_transfers .custom h).map fun _ => rfl

/-- What a field declares is the same further back. -/
theorem fieldDecl_transfers (options : CompileOptions) (repeated : Bool) {decl : Script.FieldDecl}
    (h : Reaches k scope scope' (Script.Declaration.field decl).texts) :
    Transfers (Prod.map (Decl.shift k) id) (fieldDecl scope options repeated decl)
      (fieldDecl scope' options repeated decl) := by
  have hextra : Reaches k scope scope' (decl.extra.bind Script.Extra.text?).toList := by
    rw [Reaches, Script.Declaration.texts, List.flatMap_append] at h
    exact h.left
  have hsize : Reaches k scope scope' (decl.size.bind Script.Size.text?).toList := by
    rw [Reaches, Script.Declaration.texts, List.flatMap_append] at h
    exact h.right
  unfold fieldDecl
  split
  · exact (Transfers.refl _).bind fun _ => (amountOrOne_transfers _ hextra).bind fun _ => .ok _ _
  · exact (Transfers.refl _).bind fun _ => (amountOrOne_transfers _ hextra).bind fun _ => .ok _ _
  · exact (Transfers.refl _).bind fun _ => (Transfers.refl _).bind fun _ => .ok _ _
  · exact (Transfers.refl _).bind fun _ => (computedAmount_transfers hextra).bind fun _ => .ok _ _
  · refine (elementType_transfers options hextra _).bind fun type =>
      (arrayLength_transfers repeated hsize).bind fun length => ?_
    have hnumeric : ((type.shift k).kind.isNumeric && (length.map (Length.shift k)).isNone) =
        (type.kind.isNumeric && length.isNone) := by
      rw [ElementType.kind_shift, Option.isNone_map]
    rw [hnumeric]
    exact .ok (Prod.map (Decl.shift k) id) (_, _)

end LayoutBuilder

end RecordLayout
