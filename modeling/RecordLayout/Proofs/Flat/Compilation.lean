import RecordLayout.Proofs.Flat.Flattening
import RecordLayout.Proofs.Layout.Places

/-!
# Compilations that return

Whatever the script, a compilation with flat tables comes to its end: it returns the block of the
layout, or it refuses the script where the layout has none. It never relies on something that is not
there, no error of a pass arises from it, and where it refuses the script is a place of the script.
-/

namespace RecordLayout

/-- The compilation with tables is refused where the other one is, for the same error, and otherwise
the results are related. -/
def Concurs {α β : Type} (R : α → β → Prop) : Except Script.Error α → Halting β → Prop
  | .ok x, .ok y => R x y
  | .error e, .error h => h = .refused e
  | _, _ => False

/-- A step at a place agrees as a step of the whole. -/
theorem Agrees.concurs {α β : Type} {position : Position} {R : α → β → Prop}
    {m : Except Script.Cause α} {w : Halting β} (h : Agrees position R m w) :
    Concurs R (m.mapError (⟨·, position⟩)) w := by
  cases m with
  | ok x => cases w <;> exact h
  | error cause => cases w <;> exact h

namespace Concurs

variable {α β γ δ : Type} {R : α → β → Prop} {S : γ → δ → Prop}

/-- Two steps in a row agree if the first ones do and the second ones do for what these give. -/
theorem bind {m : Except Script.Error α} {w : Halting β} {g : α → Except Script.Error γ}
    {v : β → Halting δ} (hm : Concurs R m w)
    (hg : ∀ x y, m = .ok x → R x y → Concurs S (g x) (v y)) :
    Concurs S (m >>= g) (w >>= v) := by
  cases m with
  | ok x =>
    cases w with
    | ok y => exact hg x y rfl hm
    | error h => exact hm.elim
  | error e =>
    cases w with
    | ok y => exact hm.elim
    | error h => exact hm

theorem refused (m : Except Script.Error α) : Concurs Eq m (m.mapError .refused) := by
  cases m <;> exact rfl

end Concurs

theorem LayoutBuilder.Sound.token {options : CompileOptions} {paths : List String}
    {b b' : LayoutBuilder} (hb : b.Sound options) {t : Script.Token}
    (ht : t.declaration.IsPlain) (h : b.token options paths t = .ok b') : b'.Sound options := by
  unfold LayoutBuilder.token at h
  cases hadd : b.add options paths t.position t.declaration with
  | error cause =>
    rw [hadd] at h
    cases h
  | ok added =>
    rw [hadd] at h
    cases h
    exact hb.add ht hadd

namespace Flattens

variable {options : CompileOptions} {paths : List String} {b : LayoutBuilder} {f : FlatBuilder}

/-- From token to token the tables list what is built, until both builders refuse one. -/
theorem tokens_concur {tokens : List Script.Token} (h : Flattens b f) (hb : b.Sound options)
    (hplain : ∀ t ∈ tokens, t.declaration.IsPlain) :
    Concurs (fun b f => Flattens b f ∧ b.Sound options)
      (tokens.foldlM (LayoutBuilder.token options paths) b)
      (tokens.foldlM (FlatBuilder.token options paths) f) := by
  induction tokens generalizing b f with
  | nil => exact ⟨h, hb⟩
  | cons t tokens ih =>
    obtain ⟨ht, htokens⟩ := List.forall_mem_cons.mp hplain
    rw [List.foldlM_cons, List.foldlM_cons]
    have htoken : Agrees t.position Flattens (b.add options paths t.position t.declaration)
        (f.token options paths t) := h.token_agrees hb t
    apply htoken.concurs.bind
    intro b' f' hadded hflat
    exact ih hflat (hb.token ht hadded) htokens

/-- Once no structure is open, the tables are those of the layout. -/
theorem finish_concurs (h : Flattens b f) (hb : b.Sound options) :
    Concurs (fun layout block => block = layout.block options.customs) b.finish
      (f.finish options) := by
  unfold LayoutBuilder.finish FlatBuilder.finish
  rw [h.scopes]
  rcases b with ⟨next, declared, opened, body, ended⟩
  cases opened with
  | cons s opened => exact rfl
  | nil =>
    have hdeclared : declared = body.declared := hb.inScope.declared
    have hnames : f.names = body.infos := by
      rw [h.names, hdeclared, Layout.infos_eq_declared]
    have hevaluators := h.evaluators
    rw [hnames] at hevaluators
    have hblock : (⟨f.descriptors, f.names, f.evaluators, f.customs, options.customs⟩ : Block) =
        body.block options.customs := by
      rw [hevaluators, hnames, h.descriptors, h.customs]
      rfl
    exact hblock

end Flattens

/-- A compilation with tables gives the block of the layout, and is refused where there is none. -/
theorem compileBlock_concurs (options : CompileOptions) (source : String) :
    Concurs (fun schema block => block = schema.layout.block options.customs)
      (compile options source) (compileBlock options source) := by
  unfold compile compileBlock
  rw [Script.checkedTokens_eq]
  apply (Concurs.refused _).bind
  rintro tokens _ htokens rfl
  have hat := Script.tokenize_at source
  rw [htokens] at hat
  have hbuilt : Concurs (fun b f => Flattens b f ∧ b.Sound options)
      (tokens.foldlM (LayoutBuilder.token options (Script.declaredPaths tokens)) .empty)
      (tokens.foldlM (FlatBuilder.token options (Script.declaredPaths tokens)) .empty) :=
    Flattens.empty.tokens_concur (LayoutBuilder.sound_empty options) fun t ht => (hat t ht).plain
  have hlayout : Concurs (fun layout block => block = layout.block options.customs)
      (Layout.ofTokens options tokens)
      (tokens.foldlM (FlatBuilder.token options (Script.declaredPaths tokens)) .empty >>=
        FlatBuilder.finish options) :=
    hbuilt.bind fun _ _ _ h => h.1.finish_concurs h.2
  rw [← bind_pure (tokens.foldlM _ _ >>= FlatBuilder.finish options)]
  apply hlayout.bind
  intro layout block _ hblock
  exact hblock

/-- The kinds of a refusal. -/
theorem Halted.kind_refused (e : Script.Error) :
    (Halted.refused e).kind = some .syntactic ∨ (Halted.refused e).kind = some .reference := by
  simp only [Halted.kind]
  split
  · exact .inr rfl
  · exact .inl rfl

/-- Every compilation returns. Either it gives the block of the script's layout, or the script is
malformed or refers to what it may not, and it is refused at one of its places. -/
theorem compileBlock_returns_or_refuses (options : CompileOptions) (source : String) :
    (∃ schema, compile options source = .ok schema ∧
      compileBlock options source = .ok (schema.layout.block options.customs)) ∨
    ∃ e, compile options source = .error e ∧
      compileBlock options source = .error (.refused e) ∧
      ((Halted.refused e).kind = some .syntactic ∨ (Halted.refused e).kind = some .reference) ∧
      e.position.Within source.toList ∧ e.position.offset ≤ source.utf8ByteSize ∧
      String.Pos.Raw.IsValid source ⟨e.position.offset⟩ := by
  have hconcurs := compileBlock_concurs options source
  cases hcompile : compile options source with
  | ok schema =>
    rw [hcompile] at hconcurs
    cases hblock : compileBlock options source with
    | ok block =>
      rw [hblock] at hconcurs
      exact .inl ⟨schema, rfl, congrArg Except.ok hconcurs⟩
    | error stop =>
      rw [hblock] at hconcurs
      exact hconcurs.elim
  | error e =>
    rw [hcompile] at hconcurs
    have hwithin := compile_error_within hcompile
    cases hblock : compileBlock options source with
    | ok block =>
      rw [hblock] at hconcurs
      exact hconcurs.elim
    | error stop =>
      rw [hblock] at hconcurs
      exact .inr ⟨e, rfl, congrArg Except.error hconcurs, Halted.kind_refused e, hwithin,
        hwithin.offset_le, hwithin.isValid⟩

end RecordLayout
