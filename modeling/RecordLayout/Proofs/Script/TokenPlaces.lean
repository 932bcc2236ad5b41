import RecordLayout.Proofs.Script.Places
import RecordLayout.Script.Tokenize

/-!
# Places of tokens

Every token stands at a place of its script, and so does what is reported where a script has no
tokens. The names that tokens declare have no characters but those of names, and at least one.
-/

namespace RecordLayout.Script

variable {origin : Cursor}

/-- The name that a declaration declares, if it does. -/
def Declaration.name? : Declaration → Option String
  | .field decl => decl.name
  | .opening name _ => name
  | .closing => none

/-- A declaration declares only a name with the property. -/
def Declaration.Named (V : String → Prop) (d : Declaration) : Prop := ∀ name ∈ d.name?, V name

/-- A declaration declares only a name of the characters of names. -/
def Declaration.IsPlain (d : Declaration) : Prop := ∀ name ∈ d.name?, Script.IsPlain name

/-- The token is at a place of the given ones, and its name is one of the characters of names. -/
structure Token.At (place : Position → Prop) (t : Token) : Prop where
  position : place t.position
  plain : t.declaration.IsPlain

/-- The token is at a place of the given ones, and its name has the property. -/
def Token.NamedAt (place : Position → Prop) (V : String → Prop) (t : Token) : Prop :=
  place t.position ∧ t.declaration.Named V

/-- An error is at a place of the given ones, and any other result has the property. -/
def ResultAt {α : Type} (place : Position → Prop) (V : α → Prop) : Except Error α → Prop
  | .ok x => V x
  | .error e => place e.position

/-- Results one behind the other: an error is at a place if its part is. -/
theorem ResultAt.bind {α β : Type} {place : Position → Prop} {V : α → Prop} {W : β → Prop}
    {m : Except Error α} {f : α → Except Error β} (h : ResultAt place V m)
    (hf : ∀ x, V x → ResultAt place W (f x)) : ResultAt place W (m >>= f) := by
  cases m with
  | ok x => exact hf x h
  | error e => exact h

namespace Scanner

theorem stays_symbol (x : Char) : Stays origin (fun _ => True) (symbol x) :=
  stays_char.bind_pure fun _ _ => trivial

theorem stays_byteOrder : Stays origin (fun _ => True) byteOrder := by
  apply Stays.named
  apply Stays.orElse
  · exact (stays_symbol '<').bind_pure fun _ _ => trivial
  · exact (stays_symbol '>').bind_pure fun _ _ => trivial

theorem stays_typeName : Stays origin (fun _ => True) typeName := by
  apply Stays.named
  apply Stays.orElse
  · exact (stays_word _).bind_pure fun _ _ => trivial
  · exact stays_char.bind fun _ _ => stays_span.bind_pure fun _ _ => trivial

theorem stays_extraExpr : Stays origin (fun _ => True) extraExpr := by
  apply Stays.named
  apply (stays_symbol '(').bind
  intro _ _
  apply stays_balanced.bind
  intro _ _
  exact (stays_symbol ')').bind_pure fun _ _ => trivial

theorem stays_extraDigits : Stays origin (fun _ => True) extraDigits := by
  apply Stays.named
  apply stays_span1.bind
  intro _ _
  exact stays_notNext.bind_pure fun _ _ => trivial

/-- A number that is too large is reported where its colon stands. -/
theorem ofDigits_at (digits : String) {p : Position} (hp : origin.Sees p) :
    ResultAt origin.Sees (fun _ => True) (Extra.ofDigits digits p) := by
  unfold Extra.ofDigits
  dsimp only
  split
  · trivial
  · exact hp

theorem stays_typeExtra : Stays origin (ResultAt origin.Sees fun _ => True) typeExtra := by
  apply stays_get.bind
  intro start hstart
  apply Stays.named
  apply (stays_symbol ':').bind
  intro _ _
  apply Stays.orElse
  · exact stays_extraExpr.bind_pure fun _ _ => trivial
  · exact stays_extraDigits.bind_pure fun digits _ => ofDigits_at digits hstart.sees

/-- The size of an array, read by either of its forms. -/
theorem stays_arraySize : Stays origin (fun _ => True) arraySize := by
  have hunbounded : Stays origin (fun _ : Size => True)
      (named .unbounded (do symbol '_'; gap; next (· == ']'); pure Size.unbounded)) := by
    apply Stays.named
    apply (stays_symbol '_').bind
    intro _ _
    apply stays_gap.bind
    intro _ _
    exact stays_next.bind_pure fun _ _ => trivial
  have htext : Stays origin (fun _ : Size => True) (named .sizeText (do
      let text ← balanced1
      pure (Size.expression (String.ofList (Text.trim text))))) := by
    apply Stays.named
    exact stays_balanced1.bind_pure fun _ _ => trivial
  apply Stays.named
  apply (stays_symbol '[').bind
  intro _ _
  apply stays_gap.bind
  intro _ _
  apply (hunbounded.orElse htext).bind
  intro _ _
  apply stays_gap.bind
  intro _ _
  exact (stays_symbol ']').bind_pure fun _ _ => trivial

theorem stays_fieldName : Stays origin (fun n => IsName n.toList) fieldName := stays_name.named _

section

variable {V : String → Prop} (hV : Stays origin V fieldName)
include hV

/-- A field, whose parameter may be a number that is too large. -/
theorem stays_fieldDecl : Stays origin (ResultAt origin.Sees (Declaration.Named V)) fieldDecl := by
  apply Stays.named
  apply stays_byteOrder.maybe.bind
  intro _ _
  apply stays_gap.bind
  intro _ _
  apply stays_typeName.bind
  intro _ _
  apply stays_gap.bind
  intro _ _
  apply stays_typeExtra.maybe.bind
  intro extra hextra
  apply stays_gap.bind
  intro _ _
  apply stays_arraySize.maybe.bind
  intro _ _
  apply stays_gap.bind
  intro _ _
  apply hV.maybe.bind
  intro name hname
  apply stays_gap.bind
  intro _ _
  apply (stays_symbol ';').bind_pure
  intro _ _
  rcases extra with _ | e | extra
  · exact hname
  · exact hextra _ rfl
  · exact hname

theorem stays_structStart : Stays origin (Declaration.Named V) structStart := by
  apply Stays.named
  apply hV.maybe.bind
  intro name hname
  apply stays_gap.bind
  intro _ _
  apply stays_arraySize.maybe.bind
  intro _ _
  apply stays_gap.bind
  intro _ _
  exact (stays_symbol _).bind_pure fun _ _ => hname

omit hV in
theorem stays_structEnd : Stays origin (Declaration.Named V) structEnd := by
  apply Stays.named
  exact (stays_symbol _).bind_pure fun _ _ _ h => absurd h (Option.not_mem_none _)

theorem stays_declaration :
    Stays origin (ResultAt origin.Sees (Declaration.Named V)) declaration := by
  apply Stays.orElse
  · exact stays_structEnd.map fun _ h => h
  · apply Stays.orElse
    · exact (stays_structStart hV).map fun _ h => h
    · exact stays_fieldDecl hV

theorem stays_token : Stays origin (ResultAt origin.Sees (Token.NamedAt origin.Sees V)) token := by
  apply stays_get.bind
  intro start hstart
  apply (stays_declaration hV).bind
  intro found hfound
  apply stays_get.bind_pure
  intro stop _
  cases found with
  | error e => exact hfound
  | ok d => exact ⟨hstart.sees, hfound⟩

theorem stays_script :
    Stays origin
      (fun found => ∀ t ∈ found, ResultAt origin.Sees (Token.NamedAt origin.Sees V) t) script := by
  apply Stays.named
  apply stays_gap.bind
  intro _ _
  apply (stays_token hV).manyApart.bind
  intro found hfound
  apply stays_gap.bind
  intro _ _
  exact (stays_atEnd.named _).bind_pure fun _ _ => hfound

end

end Scanner

theorem mapM_id_at {place : Position → Prop} {V : Token → Prop}
    {found : List (Except Error Token)} (h : ∀ t ∈ found, ResultAt place V t) :
    ResultAt place (fun tokens => ∀ t ∈ tokens, V t) (found.mapM id) := by
  induction found with
  | nil => exact fun t ht => absurd ht List.not_mem_nil
  | cons first found ih =>
    obtain ⟨hfirst, hfound⟩ := List.forall_mem_cons.mp h
    rw [List.mapM_cons]
    apply ResultAt.bind hfirst
    intro t ht
    apply (ih hfound).bind
    intro tokens htokens
    exact List.forall_mem_cons.mpr ⟨ht, htokens⟩

/-- Places that are seen from the front of the source are places of the source. -/
theorem ResultAt.within {source : String} {V : String → Prop} {r : Except Error Token}
    (h : ResultAt (Cursor.ofString source).Sees (Token.NamedAt (Cursor.ofString source).Sees V) r) :
    ResultAt (Position.Within source.toList) (Token.NamedAt (Position.Within source.toList) V) r := by
  cases r with
  | ok t => exact ⟨h.1.within, h.2⟩
  | error e => exact Cursor.Sees.within h

/-- The tokens of a script, or what is reported instead of them, are at places of the script, and
their names have what every name has. -/
theorem tokenize_namedAt (source : String) {V : String → Prop}
    (hV : Scanner.Stays (.ofString source) V Scanner.fieldName) :
    ResultAt (Position.Within source.toList)
      (fun tokens => ∀ t ∈ tokens, t.NamedAt (Position.Within source.toList) V)
      (tokenize source) := by
  unfold tokenize
  split
  · rename_i found rest hanswer
    exact mapM_id_at fun t ht => ((Scanner.stays_script hV).answer_ok hanswer t ht).within
  · rename_i attempts hanswer
    exact (Scanner.stays_script hV).answer_error hanswer

/-- The tokens of a script, or what is reported instead of them, are at places of the script. -/
theorem tokenize_at (source : String) :
    ResultAt (Position.Within source.toList)
      (fun tokens => ∀ t ∈ tokens, t.At (Position.Within source.toList)) (tokenize source) := by
  have hnamed := tokenize_namedAt source Scanner.stays_fieldName
  cases htokens : tokenize source with
  | ok tokens =>
    rw [htokens] at hnamed
    intro t ht
    obtain ⟨hplace, hname⟩ := hnamed t ht
    exact ⟨hplace, fun name hmem => Scanner.IsName.isPlain (hname name hmem)⟩
  | error e =>
    rw [htokens] at hnamed
    exact hnamed

/-- Every token of a script declares a name of the grammar, or none. -/
theorem tokenize_names {source : String} {tokens : List Token} (h : tokenize source = .ok tokens) :
    ∀ t ∈ tokens, t.declaration.Named (Scanner.IsName ·.toList) := by
  have hnamed := tokenize_namedAt source Scanner.stays_fieldName
  rw [h] at hnamed
  exact fun t ht => (hnamed t ht).2

/-- No token of a script declares the empty name. -/
theorem tokenize_names_ne {source : String} {tokens : List Token}
    (h : tokenize source = .ok tokens) : ∀ t ∈ tokens, t.declaration.Named (· ≠ "") :=
  fun t ht name hmem => Scanner.IsName.ne_empty (tokenize_names h t ht name hmem)

end RecordLayout.Script
