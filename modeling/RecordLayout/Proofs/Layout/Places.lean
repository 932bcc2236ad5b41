import RecordLayout.Layout.Compile
import RecordLayout.Proofs.Script.TokenPlaces

/-!
# Places of refusals

What is wrong with a declaration is reported at its token, and a structure that is left open at the
token that opened it. Tokens are at places of the script, so every refusal is.
-/

namespace RecordLayout

open Script (ResultAt)

namespace LayoutBuilder

variable {options : CompileOptions} {paths : List String} {place : Position → Prop}
  {b b' : LayoutBuilder}

/-- The open structures are at places of the given ones. -/
def OpenedAt (place : Position → Prop) (b : LayoutBuilder) : Prop :=
  ∀ s ∈ b.opened, place s.head.position

theorem openedAt_empty (place : Position → Prop) : OpenedAt place .empty :=
  fun _ hs => absurd hs List.not_mem_nil

/-- An opened structure is at the place of its token. -/
theorem OpenedAt.add (hb : b.OpenedAt place) {position : Position} (hposition : place position)
    {declaration : Script.Declaration} (h : b.add options paths position declaration = .ok b') :
    b'.OpenedAt place := by
  cases declaration with
  | field decl =>
    obtain ⟨⟨⟩, -, h⟩ := except_bind_eq_ok.mp h
    obtain ⟨⟨item, numeric⟩, -, h⟩ := except_bind_eq_ok.mp h
    obtain ⟨⟨info, declared⟩, -, h⟩ := except_bind_eq_ok.mp h
    cases h
    exact hb
  | opening name size =>
    obtain ⟨⟨⟩, -, h⟩ := except_bind_eq_ok.mp h
    obtain ⟨length, -, h⟩ := except_bind_eq_ok.mp h
    obtain ⟨⟨info, declared⟩, -, h⟩ := except_bind_eq_ok.mp h
    cases h
    exact List.forall_mem_cons.mpr ⟨hposition, hb⟩
  | closing =>
    simp only [LayoutBuilder.add, closing] at h
    cases hopened : b.opened with
    | nil =>
      rw [hopened] at h
      cases h
    | cons s opened =>
      rw [hopened] at h
      cases h
      intro s' hs'
      exact hb s' (hopened ▸ List.mem_cons_of_mem s hs')

theorem OpenedAt.token (hb : b.OpenedAt place) {t : Script.Token} (ht : place t.position) :
    ResultAt place (OpenedAt place) (b.token options paths t) := by
  unfold LayoutBuilder.token
  cases hadd : b.add options paths t.position t.declaration with
  | error cause => exact ht
  | ok b' => exact hb.add ht hadd

/-- All of a script: what it refuses, it refuses at the place of one of its tokens. -/
theorem OpenedAt.tokens {tokens : List Script.Token} (hb : b.OpenedAt place)
    (htokens : ∀ t ∈ tokens, place t.position) :
    ResultAt place (OpenedAt place) (tokens.foldlM (LayoutBuilder.token options paths) b) := by
  induction tokens generalizing b with
  | nil => exact hb
  | cons t tokens ih =>
    obtain ⟨ht, htokens⟩ := List.forall_mem_cons.mp htokens
    rw [List.foldlM_cons]
    apply (hb.token ht).bind
    intro b' hb'
    exact ih hb' htokens

/-- A structure that is left open is reported at its own place. -/
theorem OpenedAt.finish (hb : b.OpenedAt place) :
    ResultAt place (fun _ => True) b.finish := by
  unfold LayoutBuilder.finish
  split
  · trivial
  · rename_i s opened hopened
    exact hb s (hopened ▸ List.mem_cons_self)

end LayoutBuilder

/-- What is reported instead of a schema is at a place of the script. -/
theorem compile_at (options : CompileOptions) (source : String) :
    ResultAt (Position.Within source.toList) (fun _ => True) (compile options source) := by
  apply (Script.tokenize_at source).bind
  intro tokens htokens
  have hopened : LayoutBuilder.OpenedAt (Position.Within source.toList) .empty :=
    LayoutBuilder.openedAt_empty _
  have hlayout : ResultAt (Position.Within source.toList) (fun _ => True)
      (Layout.ofTokens options tokens) := by
    apply (hopened.tokens fun t ht => (htokens t ht).position).bind
    intro b hb
    exact hb.finish
  apply hlayout.bind
  intro _ _
  trivial

/-- A script is refused at a place of the script. -/
theorem compile_error_within {options : CompileOptions} {source : String} {e : Script.Error}
    (h : compile options source = .error e) : e.position.Within source.toList := by
  have hat := compile_at options source
  rw [h] at hat
  exact hat

end RecordLayout
