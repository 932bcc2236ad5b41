import RecordLayout.Proofs.Flat.Halting
import RecordLayout.Proofs.Script.TokenPlaces

/-!
# Tokens in two steps

Matching the grammar gives the text of each part of a declaration; the parts are made sense of in a
second step. The parameter of a type is matched with its parentheses, and what stands between them
is cut out by byte offsets. The two steps give the tokens that one gives: where the grammar has
matched, the text has the parentheses, so nothing is cut that is not there.
-/

namespace RecordLayout.Script

/-- The parameter of a type as it was matched. -/
inductive RawExtra where
  /-- An expression with the parentheses around it. -/
  | group (text : String)
  | digits (text : String)

/-- A field as it was matched; the parameter of its type with the place of its colon. -/
structure RawField where
  order : Option ByteOrder
  type : String
  extra : Option (RawExtra × Position)
  size : Option Size
  name : Option String

/-- A declaration as it was matched. -/
inductive RawDeclaration where
  | field (raw : RawField)
  | opening (name : Option String) (size : Option Size)
  | closing

/-- A token as it was matched. -/
structure RawToken where
  declaration : RawDeclaration
  text : String
  position : Position

/-! ## The second step -/

/-- The parameter of a type. -/
def RawExtra.build (position : Position) : RawExtra → Halting Extra
  | group text => do
    let stop ← less text.utf8ByteSize 1
    let inner ← slice text 1 stop
    pure (.expression (String.ofList (Text.trim inner.toList)))
  | digits text => (Extra.ofDigits text position).mapError .refused

/-- The field. -/
def RawField.build (raw : RawField) : Halting FieldDecl :=
  match raw.extra with
  | none => pure ⟨raw.order, raw.type, none, raw.size, raw.name⟩
  | some (extra, position) => do
    let extra ← extra.build position
    pure ⟨raw.order, raw.type, some extra, raw.size, raw.name⟩

/-- The declaration. -/
def RawDeclaration.build : RawDeclaration → Halting Declaration
  | field raw => Declaration.field <$> raw.build
  | opening name size => pure (.opening name size)
  | closing => pure .closing

/-- The token. -/
def RawToken.build (raw : RawToken) : Halting Token := do
  let declaration ← raw.declaration.build
  pure ⟨declaration, raw.text, raw.position⟩

namespace Scanner

/-! ## The first step -/

/-- The parameter of a type, as an expression with its parentheses. -/
def rawExtraExpr : Scanner RawExtra := do
  let start ← get
  named .extraExpr do
    symbol '('
    let _ ← balanced
    symbol ')'
    let stop ← get
    pure (.group (String.ofList (start.upTo stop)))

/-- The parameter of a type. -/
def rawTypeExtra : Scanner (RawExtra × Position) := do
  let start ← get
  named .typeExtra do
    symbol ':'
    (do
      let extra ← rawExtraExpr
      pure (extra, start.position)) <|>
    (do
      let digits ← extraDigits
      pure (.digits digits, start.position))

/-- The declaration of a field. -/
def rawFieldDecl : Scanner RawDeclaration :=
  named .fieldDecl do
    let order ← maybe byteOrder
    gap
    let type ← typeName
    gap
    let extra ← maybe rawTypeExtra
    gap
    let size ← maybe arraySize
    gap
    let name ← maybe fieldName
    gap
    symbol ';'
    pure (.field ⟨order, type, extra, size, name⟩)

/-- The opening of a structure. -/
def rawStructStart : Scanner RawDeclaration :=
  named .structStart do
    let name ← maybe fieldName
    gap
    let size ← maybe arraySize
    gap
    symbol '\x7b'
    pure (.opening name size)

/-- The closing of a structure. -/
def rawStructEnd : Scanner RawDeclaration :=
  named .structEnd do
    symbol '\x7d'
    pure .closing

/-- One token. -/
def rawToken : Scanner RawToken := do
  let start ← get
  let declaration ← rawStructEnd <|> rawStructStart <|> rawFieldDecl
  let stop ← get
  pure ⟨declaration, String.ofList (start.upTo stop), start.position⟩

/-- A whole script. -/
def rawScript : Scanner (List RawToken) :=
  named .script do
    gap
    let tokens ← manyApart rawToken
    gap
    named .endOfInput atEnd
    pure tokens

end Scanner

/-- The tokens of a script. -/
def checkedTokens (source : String) : Halting (List Token) :=
  match Scanner.rawScript.answer (.ofString source) with
  | .ok (tokens, _) => tokens.mapM RawToken.build
  | .error attempts => refuse (.unexpected attempts.failed) attempts.position

namespace Scanner

/-! ## Side by side -/

/-- Both scanners refuse, or both answer and leave the same, with related values. -/
inductive Same {α β : Type} (R : α → β → Prop) :
    Option (α × Cursor) × Attempts → Option (β × Cursor) × Attempts → Prop
  | found {x : α} {y : β} (c : Cursor) (a : Attempts) (h : R x y) :
      Same R (some (x, c), a) (some (y, c), a)
  | refused (a : Attempts) : Same R (none, a) (none, a)

/-- The second scanner does what the first one does, with a value related to that of the first. -/
def Follows {α β : Type} (R : α → β → Prop) (s : Scanner α) (t : Scanner β) : Prop :=
  ∀ c a, Same R (s c a) (t c a)

variable {α β γ δ : Type} {R : α → β → Prop} {S : γ → δ → Prop} {s s' : Scanner α}
  {t t' : Scanner β} {f : α → Scanner γ} {g : β → Scanner δ}

theorem follows_pure {x : α} {y : β} (h : R x y) : Follows R (pure x) (pure y) :=
  fun c a => .found c a h

theorem follows_self (s : Scanner α) : Follows Eq s s := by
  intro c a
  rcases s c a with ⟨_ | ⟨x, c'⟩, a'⟩
  · exact .refused a'
  · exact .found c' a' rfl

/-- The second scanners start where the first ones stop. -/
theorem Same.bind {c : Cursor} {a : Attempts} (h : Same R (s c a) (t c a))
    (hf : ∀ x y c' a', R x y → s c a = (some (x, c'), a') → Same S (f x c' a') (g y c' a')) :
    Same S ((s >>= f) c a) ((t >>= g) c a) := by
  generalize hs : s c a = found, ht : t c a = found' at h
  cases h with
  | found c' a' hxy =>
    rw [bind_of_some hs, bind_of_some ht]
    exact hf _ _ c' a' hxy hs
  | refused a' =>
    rw [bind_of_none hs, bind_of_none ht]
    exact .refused a'

theorem Same.named (production : Production) {c : Cursor} {a : Attempts}
    (h : Same R (s c a) (t c a)) :
    Same R (named production s c a) (named production t c a) := by
  generalize hs : s c a = found, ht : t c a = found' at h
  simp only [Scanner.named, hs, ht]
  cases h with
  | found c' a' hxy => exact .found c' a' hxy
  | refused a' => exact .refused _

theorem Follows.bind (h : Follows R s t) (hf : ∀ x y, R x y → Follows S (f x) (g y)) :
    Follows S (s >>= f) (t >>= g) :=
  fun c a => (h c a).bind fun x y c' a' hxy _ => hf x y hxy c' a'

theorem Follows.named (production : Production) (h : Follows R s t) :
    Follows R (named production s) (named production t) :=
  fun c a => (h c a).named production

/-- A part that both scanners have in common. -/
theorem follows_bind (part : Scanner α) {f : α → Scanner γ} {g : α → Scanner δ}
    (hf : ∀ x, Follows S (f x) (g x)) : Follows S (part >>= f) (part >>= g) := by
  apply (follows_self part).bind
  rintro x _ rfl
  exact hf x

theorem Follows.bind_pure (h : Follows R s t) {f : α → γ} {g : β → δ}
    (hf : ∀ x y, R x y → S (f x) (g y)) :
    Follows S (s >>= fun x => pure (f x)) (t >>= fun y => pure (g y)) :=
  h.bind fun x y hxy => follows_pure (hf x y hxy)

theorem Follows.orElse (h : Follows R s t) (h' : Follows R s' t') :
    Follows R (s <|> s') (t <|> t') := by
  intro c a
  generalize hs : s c a = found, ht : t c a = found'
  have hsame := h c a
  rw [hs, ht] at hsame
  cases hsame with
  | found c' a' hxy =>
    rw [orElse_of_some hs, orElse_of_some ht]
    exact .found c' a' hxy
  | refused a' =>
    rw [orElse_of_none hs, orElse_of_none ht]
    exact h' c a'

theorem Follows.maybe (h : Follows R s t) : Follows (Option.Rel R) (maybe s) (maybe t) := by
  apply Follows.orElse
  · rw [← bind_pure_comp, ← bind_pure_comp]
    exact h.bind_pure fun _ _ hxy => .some hxy
  · exact follows_pure .none

theorem Follows.repeatUpTo (h : Follows R s t) (limit : Nat) :
    Follows (List.Forall₂ R) (repeatUpTo s limit) (repeatUpTo t limit) := by
  induction limit with
  | zero => exact follows_pure .nil
  | succ limit ih =>
    apply Follows.orElse
    · exact h.bind fun _ _ hxy => ih.bind_pure fun _ _ hmore => .cons hxy hmore
    · exact follows_pure .nil

theorem Follows.manyApart (h : Follows R s t) :
    Follows (List.Forall₂ R) (manyApart s) (manyApart t) := by
  have hlater : Follows R (do gap; s) (do gap; t) := follows_bind gap fun _ => h
  apply Follows.orElse
  · apply h.bind
    intro x y hxy
    have hmany : Follows (List.Forall₂ R) (many do gap; s) (many do gap; t) :=
      follows_bind get fun _ => hlater.repeatUpTo _
    exact hmany.bind_pure fun _ _ hmore => .cons hxy hmore
  · exact follows_pure .nil

/-! ## The productions -/

/-- A character that is read stands in front. -/
theorem symbol_of_some {x : Char} {c c' : Cursor} {a a' : Attempts} {u : Unit}
    (h : symbol x c a = (some (u, c'), a')) :
    a' = a ∧ c.rest = x :: c'.rest ∧ c' = ⟨c.position.next x, c'.rest⟩ := by
  rcases c with ⟨p, rest⟩
  cases rest with
  | nil => cases h
  | cons y rest =>
    by_cases hxy : (y == x) = true
    · obtain rfl := eq_of_beq hxy
      have hread : symbol y ⟨p, y :: rest⟩ a = (some ((), ⟨p.next y, rest⟩), a) := by
        have hchar : char (· == y) ⟨p, y :: rest⟩ a = (some (y, ⟨p.next y, rest⟩), a) := by
          simp only [char, hxy, if_true]
          rfl
        rw [symbol, bind_of_some hchar]
        rfl
      rw [hread] at h
      cases h
      exact ⟨rfl, rfl, rfl⟩
    · have hrefused : symbol x ⟨p, y :: rest⟩ a = (none, a) := by
        rw [symbol, bind_of_none]
        simp only [char, hxy]
        rfl
      rw [hrefused] at h
      cases h

/-- The text between parentheses, cut out of the text with them. -/
theorem build_group (text : List Char) (position : Position) :
    (RawExtra.group (String.ofList ('(' :: (text ++ [')'])))).build position =
      .ok (.expression (String.ofList (Text.trim text))) := by
  have hsize : (String.ofList ('(' :: (text ++ [')']))).utf8ByteSize =
      1 + String.utf8Len text + 1 := by
    have hopen : '('.utf8Size = 1 := rfl
    have hclose : ')'.utf8Size = 1 := rfl
    simp only [String.utf8ByteSize_ofList, String.utf8Len_cons, String.utf8Len_append,
      String.utf8Len_nil, hopen, hclose]
    omega
  have hslice : slice (String.ofList ('(' :: (text ++ [')']))) 1 (1 + String.utf8Len text) =
      .ok (String.ofList text) := by
    apply slice_eq_ok ['('] text [')']
    · rw [String.toList_ofList]
      rfl
    · rfl
    · rfl
  rw [RawExtra.build, hsize, less_eq_ok (Nat.le_add_left _ _), Nat.add_sub_cancel]
  simp only [bind, Except.bind, hslice, String.toList_ofList]
  rfl

/-- What is matched with its parentheses is the expression between them. -/
theorem follows_extraExpr (position : Position) :
    Follows (fun extra raw => raw.build position = .ok extra) extraExpr rawExtraExpr := by
  intro start a
  apply Same.named (t := do
    symbol '('
    let _ ← balanced
    symbol ')'
    let stop ← get
    pure (RawExtra.group (String.ofList (start.upTo stop))))
  apply (follows_self (symbol '(') start a).bind
  rintro ⟨⟩ ⟨⟩ c₁ a₁ - hopen
  obtain ⟨-, hstart, -⟩ := symbol_of_some hopen
  apply (follows_self balanced c₁ a₁).bind
  rintro text _ c₂ a₂ rfl hbalanced
  have hinner : text ++ c₂.rest = c₁.rest := by
    cases hbalanced
    exact (skipBalanced_reached (.refl c₁) (.refl c₁)).upTo_append
  apply (follows_self (symbol ')') c₂ a₂).bind
  rintro ⟨⟩ ⟨⟩ c₃ a₃ - hclose
  obtain ⟨-, hrest, -⟩ := symbol_of_some hclose
  have hupTo : start.upTo c₃ = '(' :: (text ++ [')']) := by
    apply Cursor.upTo_eq
    rw [hstart, ← hinner, hrest]
    simp
  apply Same.found c₃ a₃
  rw [hupTo]
  exact build_group text position

/-- The parameter, or what is reported instead of it, is what comes of the matched one. -/
theorem follows_typeExtra :
    Follows (fun extra raw => raw.1.build raw.2 = extra.mapError Halted.refused)
      typeExtra rawTypeExtra := by
  apply follows_bind
  intro start
  apply Follows.named
  apply follows_bind
  intro _
  apply Follows.orElse
  · exact (follows_extraExpr start.position).bind_pure fun _ _ h => h
  · exact (follows_self extraDigits).bind_pure fun digits _ h => h ▸ rfl

theorem follows_fieldDecl :
    Follows (fun d raw => raw.build = d.mapError Halted.refused) fieldDecl rawFieldDecl := by
  apply Follows.named
  apply follows_bind
  intro order
  apply follows_bind
  intro _
  apply follows_bind
  intro type
  apply follows_bind
  intro _
  apply follows_typeExtra.maybe.bind
  intro extra raw hextra
  apply follows_bind
  intro _
  apply follows_bind
  intro size
  apply follows_bind
  intro _
  apply follows_bind
  intro name
  apply follows_bind
  intro _
  apply follows_bind
  intro _
  apply follows_pure
  cases hextra with
  | none => rfl
  | @some extra raw hextra =>
    simp only [RawDeclaration.build, RawField.build, hextra]
    cases extra <;> rfl

theorem follows_structStart :
    Follows (fun d raw => raw.build = Except.ok d) structStart rawStructStart := by
  apply Follows.named
  apply follows_bind
  intro name
  apply follows_bind
  intro _
  apply follows_bind
  intro size
  apply follows_bind
  intro _
  apply follows_bind
  intro _
  exact follows_pure rfl

theorem follows_structEnd :
    Follows (fun d raw => raw.build = Except.ok d) structEnd rawStructEnd := by
  apply Follows.named
  apply follows_bind
  intro _
  exact follows_pure rfl

theorem follows_token :
    Follows (fun t raw => raw.build = t.mapError Halted.refused) token rawToken := by
  have hok : ∀ {s : Scanner Declaration} {t : Scanner RawDeclaration},
      Follows (fun d raw => raw.build = Except.ok d) s t →
        Follows (fun (d : Except Error Declaration) raw =>
          raw.build = d.mapError Halted.refused) (Except.ok <$> s) t := by
    intro s t h
    rw [← bind_pure_comp, ← bind_pure t]
    exact h.bind_pure fun _ _ hd => hd
  apply follows_bind
  intro start
  apply Follows.bind
  · exact (hok follows_structEnd).orElse ((hok follows_structStart).orElse follows_fieldDecl)
  · intro d raw hd
    apply follows_bind
    intro stop
    apply follows_pure
    simp only [RawToken.build, hd]
    cases d <;> rfl

theorem follows_script :
    Follows (List.Forall₂ fun t raw => raw.build = t.mapError Halted.refused) script rawScript := by
  apply Follows.named
  apply follows_bind
  intro _
  apply follows_token.manyApart.bind
  intro tokens raws htokens
  apply follows_bind
  intro _
  apply follows_bind
  intro _
  exact follows_pure htokens

end Scanner

theorem mapM_build {tokens : List (Except Error Token)} {raws : List RawToken}
    (h : List.Forall₂ (fun t raw => RawToken.build raw = t.mapError Halted.refused) tokens raws) :
    raws.mapM RawToken.build = (tokens.mapM id).mapError Halted.refused := by
  induction h with
  | nil => rfl
  | @cons t raw tokens raws ht _ ih =>
    rw [List.mapM_cons, List.mapM_cons, ht, ih]
    cases t with
    | error e => rfl
    | ok t => cases tokens.mapM id <;> rfl

/-- Both ways to the tokens of a script give the same. -/
theorem checkedTokens_eq (source : String) :
    checkedTokens source = (tokenize source).mapError .refused := by
  have hsame := Scanner.follows_script (.ofString source) .none
  unfold checkedTokens tokenize Scanner.answer
  generalize Scanner.script (.ofString source) .none = found,
    Scanner.rawScript (.ofString source) .none = found' at hsame
  cases hsame with
  | found c a h => exact mapM_build h
  | refused a => rfl

end RecordLayout.Script
