import RecordLayout.Proofs.Pass.WholeStream

/-!
# Loops up to the end of the stream

An unbounded array is read in a loop. Each round looks whether a further element can begin, reads
one, and compares the mark of the reader, the number of bytes it has fetched and of bits it has left
of the last one, with the mark in front of the element. An element that leaves the mark as it was
would come again and again, and is an error. A loop over single bytes does without the comparison.

Nothing in the loop itself says that it comes to an end. What does is that a reader goes forward
only: the mark is the same exactly where as many bits remain as before, and a round that lets the
loop go on leaves fewer. A loop so makes at most as many rounds as there are bits in front of it.
-/

namespace RecordLayout

namespace Reader

variable {r r' : Reader}

/-- How far a reader has come: the bytes it has fetched, and the bits it has left of the last one. -/
def mark (r : Reader) : Nat × Nat := (r.fetched, r.buffered)

/-- A reader that has gone on and shows the same mark has taken nothing. -/
theorem From.mark_eq_iff (h : From r r') (hr : r.Sound) :
    r'.mark = r.mark ↔ r'.remaining = r.remaining := by
  have hsum := h.offset_add_remaining
  have hoffset := hr.offset_add
  have hoffset' := h.sound.offset_add
  have hlt := hr.buffered_lt
  have hlt' := h.sound.buffered_lt
  rw [mark, mark, Prod.mk.injEq]
  constructor
  · rintro ⟨hfetched, hbuffered⟩
    omega
  · intro hremaining
    constructor <;> omega

theorem From.remaining_le (h : From r r') : r'.remaining ≤ r.remaining := by
  obtain ⟨n, hn⟩ := h
  have := hn.remaining
  omega

end Reader

namespace Decode

variable {α : Type} {s s' s₁ s₂ t : PassState Reader}

/-- What is repeated up to the end of the stream. -/
structure Loop (α : Type) where
  /-- The fewest bits that an element is taken to need. -/
  least : Nat
  order : BitOrder
  element : PassM Reader (Step α)
  /-- The error of an element that takes nothing, if the loop looks for one. -/
  idle : Option Error

namespace Loop

variable {loop : Loop α}

/-- Looks whether no further element can begin. -/
def look (loop : Loop α) : PassM Reader Bool :=
  PassM.onStream (Reader.atEndFor loop.least loop.order)

/-- What the elements behind the first one give, together with it. -/
def behind (x : α) :
    EStateM.Result Error (PassState Reader) (List α × Flow) →
      EStateM.Result Error (PassState Reader) (List α × Flow)
  | .ok (xs, flow) s => .ok (x :: xs, flow) s
  | .error e s => .error e s

/-- What a round of a loop does. -/
inductive Round (α : Type)
  /-- The loop ends. An element had begun in a state, if there is one. -/
  | ends (begun : Option (PassState Reader))
    (result : EStateM.Result Error (PassState Reader) (List α × Flow))
  /-- The loop goes on behind an element that begins in one state and ends in another. -/
  | goesOn (begun : PassState Reader) (x : α) (s : PassState Reader)

/-- One round. -/
def round (loop : Loop α) (s : PassState Reader) : Round α :=
  match loop.look s with
  | .error e t => .ends none (.error e t)
  | .ok true t => .ends none (.ok ([], .goOn) t)
  | .ok false s₁ =>
    match loop.element s₁, loop.idle with
    | .error e t, _ => .ends (some s₁) (.error e t)
    | .ok (.last x) t, _ => .ends (some s₁) (.ok (x.toList, .stop) t)
    | .ok (.next x) t, none => .goesOn s₁ x t
    | .ok (.next x) t, some e =>
      if t.stream.mark = s₁.stream.mark then .ends (some s₁) (.error e t) else .goesOn s₁ x t

/-- The course of a loop from a state on: the states in which its elements begin, and what comes of
it. -/
inductive Course (loop : Loop α) : PassState Reader → List (PassState Reader) →
    EStateM.Result Error (PassState Reader) (List α × Flow) → Prop
  | ends {s : PassState Reader} {begun : Option (PassState Reader)}
      {result : EStateM.Result Error (PassState Reader) (List α × Flow)} :
      loop.round s = .ends begun result → Course loop s begun.toList result
  | goesOn {s s₁ s₂ : PassState Reader} {x : α} {begun : List (PassState Reader)}
      {result : EStateM.Result Error (PassState Reader) (List α × Flow)} :
      loop.round s = .goesOn s₁ x s₂ → Course loop s₂ begun result →
      Course loop s (s₁ :: begun) (behind x result)

/-- A loop has one course only. -/
theorem Course.unique {begun begun' : List (PassState Reader)}
    {result result' : EStateM.Result Error (PassState Reader) (List α × Flow)}
    (h : loop.Course s begun result) (h' : loop.Course s begun' result') :
    begun' = begun ∧ result' = result := by
  induction h generalizing begun' result' with
  | ends hround =>
    cases h' with
    | ends hround' =>
      cases hround.symm.trans hround'
      exact ⟨rfl, rfl⟩
    | goesOn hround' _ => cases hround.symm.trans hround'
  | goesOn hround hrest ih =>
    cases h' with
    | ends hround' => cases hround.symm.trans hround'
    | goesOn hround' hrest' =>
      cases hround.symm.trans hround'
      obtain ⟨rfl, rfl⟩ := ih hrest'
      exact ⟨rfl, rfl⟩

/-- The element that begins in a state takes nothing. -/
def Idles (loop : Loop α) (s : PassState Reader) : Prop :=
  ∃ x s', loop.element s = .ok (.next x) s' ∧ s'.stream.remaining = s.stream.remaining

/-- A loop whose elements go forward, and take something where it does not look. -/
structure Advances (loop : Loop α) : Prop where
  least : 0 < loop.least
  element : ∀ start, Keeps (Goes start) loop.element
  takes : loop.idle = none → ∀ s x s', s.stream.Sound → loop.element s = .ok (.next x) s' →
    s'.stream.remaining < s.stream.remaining

/-- A look moves nothing, and where an element can begin there is a bit for it. -/
theorem look_eq_ok (hleast : 0 < loop.least) (hs : s.stream.Sound) {atEnd : Bool}
    (h : loop.look s = .ok atEnd s₁) :
    s₁.stream.Sound ∧ s₁.stream.remaining = s.stream.remaining ∧
      (atEnd = false → 0 < s.stream.remaining) := by
  obtain ⟨r, hat, rfl⟩ := PassM.onStream_eq_ok.mp h
  obtain ⟨htakes, hroom⟩ := Reader.atEndFor_eq_ok hs hat
  refine ⟨htakes.sound, ?_, fun hbegins => ?_⟩
  · have hremaining := htakes.remaining
    show r.remaining = _
    omega
  · have := hroom hbegins
    omega

/-- All that a round can do. A look moves nothing, and an element that lets the loop go on leaves
fewer bits than there were. Where the loop ends with an element, this failed, ended the record, or
took nothing. -/
def Done (loop : Loop α) (s : PassState Reader) : Round α → Prop
  | .ends none result =>
    (∃ e t, loop.look s = .error e t ∧ result = .error e t) ∨ ∃ t, result = .ok ([], .goOn) t
  | .ends (some s₁) result =>
    (s₁.stream.Sound ∧ s₁.stream.remaining = s.stream.remaining ∧ 0 < s.stream.remaining) ∧
      ((∃ e t, loop.element s₁ = .error e t ∧ result = .error e t) ∨
        (∃ x t, loop.element s₁ = .ok (.last x) t ∧ result = .ok (x.toList, .stop) t) ∨
        ∃ x t e, loop.element s₁ = .ok (.next x) t ∧ t.stream.remaining = s₁.stream.remaining ∧
          loop.idle = some e ∧ result = .error e t)
  | .goesOn s₁ x s₂ =>
    (s₁.stream.Sound ∧ s₁.stream.remaining = s.stream.remaining ∧ 0 < s.stream.remaining) ∧
      loop.element s₁ = .ok (.next x) s₂ ∧ s₂.stream.Sound ∧
        s₂.stream.remaining < s₁.stream.remaining

/-- A round that goes on has taken a bit. -/
theorem Advances.round (h : loop.Advances) (hs : s.stream.Sound) : loop.Done s (loop.round s) := by
  unfold Loop.round
  cases hlook : loop.look s with
  | error e t => exact .inl ⟨e, t, hlook, rfl⟩
  | ok atEnd s₁ =>
    obtain ⟨hs₁, hremaining, hroom⟩ := look_eq_ok h.least hs hlook
    cases atEnd with
    | true => exact .inr ⟨s₁, rfl⟩
    | false =>
      have hbegins := And.intro hs₁ (And.intro hremaining (hroom rfl))
      dsimp only
      cases hx : loop.element s₁ with
      | error e t => exact ⟨hbegins, .inl ⟨e, t, hx, rfl⟩⟩
      | ok step t =>
        have hfrom : Reader.From s₁.stream t.stream := h.element _ _ _ _ (.refl hs₁) hx
        cases step with
        | last x => exact ⟨hbegins, .inr (.inl ⟨x, t, hx, rfl⟩)⟩
        | next x =>
          cases hidle : loop.idle with
          | none => exact ⟨hbegins, hx, hfrom.sound, h.takes hidle _ _ _ hs₁ hx⟩
          | some e =>
            dsimp only
            split
            · rename_i hmark
              exact ⟨hbegins, .inr (.inr ⟨x, t, e, hx, (hfrom.mark_eq_iff hs₁).mp hmark, hidle,
                rfl⟩)⟩
            · rename_i hmoved
              rw [hfrom.mark_eq_iff hs₁] at hmoved
              exact ⟨hbegins, hx, hfrom.sound, lt_of_le_of_ne hfrom.remaining_le hmoved⟩

/-! ## What a whole course keeps -/

section

variable {begun : List (PassState Reader)}
  {result : EStateM.Result Error (PassState Reader) (List α × Flow)}

/-- Every element begins with a bit ahead and with no more bits than the loop, and each with fewer
than the one before it. -/
theorem Course.descends (h : loop.Advances) (hcourse : loop.Course s begun result)
    (hs : s.stream.Sound) :
    (∀ t ∈ begun, t.stream.Sound ∧ 0 < t.stream.remaining ∧
      t.stream.remaining ≤ s.stream.remaining) ∧
    begun.Pairwise (fun t u => u.stream.remaining < t.stream.remaining) := by
  induction hcourse with
  | @ends s begun result hround =>
    have hdone := h.round hs
    rw [hround] at hdone
    cases begun with
    | none => exact ⟨nofun, .nil⟩
    | some s₁ =>
      obtain ⟨⟨hs₁, hremaining, hroom⟩, -⟩ := hdone
      refine ⟨fun t ht => ?_, List.pairwise_singleton _ _⟩
      obtain rfl := List.mem_singleton.mp ht
      exact ⟨hs₁, by omega, hremaining.le⟩
  | goesOn hround hrest ih =>
    have hdone := h.round hs
    rw [hround] at hdone
    obtain ⟨⟨hs₁, hremaining, hroom⟩, -, hs₂, hless⟩ := hdone
    obtain ⟨hall, hpairs⟩ := ih hs₂
    refine ⟨fun t ht => ?_, List.pairwise_cons.mpr ⟨fun t ht => ?_, hpairs⟩⟩
    · rcases List.mem_cons.mp ht with rfl | ht
      · exact ⟨hs₁, by omega, hremaining.le⟩
      · obtain ⟨hsound, hpos, hle⟩ := hall t ht
        exact ⟨hsound, hpos, by omega⟩
    · have := (hall t ht).2.2
      omega

/-- A loop makes at most as many rounds as there are bits in front of it. -/
theorem Course.length_le (h : loop.Advances) (hcourse : loop.Course s begun result)
    (hs : s.stream.Sound) : begun.length ≤ s.stream.remaining := by
  induction hcourse with
  | @ends s begun result hround =>
    have hdone := h.round hs
    rw [hround] at hdone
    cases begun with
    | none => exact Nat.zero_le _
    | some s₁ => exact hdone.1.2.2
  | goesOn hround hrest ih =>
    have hdone := h.round hs
    rw [hround] at hdone
    obtain ⟨⟨-, hremaining, -⟩, -, hs₂, hless⟩ := hdone
    have := ih hs₂
    rw [List.length_cons]
    omega

/-- An element that takes nothing is reported. -/
theorem Course.reports (h : loop.Advances) (hcourse : loop.Course s begun result)
    (hs : s.stream.Sound) (hidles : ∃ t ∈ begun, loop.Idles t) :
    ∃ e u, loop.idle = some e ∧ result = .error e u := by
  induction hcourse with
  | @ends s begun result hround =>
    have hdone := h.round hs
    rw [hround] at hdone
    cases begun with
    | none => exact absurd hidles (by simp)
    | some s₁ =>
      obtain ⟨t, ht, x, u, hx, -⟩ := hidles
      obtain rfl := List.mem_singleton.mp ht
      obtain ⟨-, ⟨e, v, hfails, -⟩ | ⟨y, v, hlast, -⟩ | ⟨y, v, e, -, -, hidle, rfl⟩⟩ := hdone
      · cases hx.symm.trans hfails
      · cases hx.symm.trans hlast
      · exact ⟨e, v, hidle, rfl⟩
  | goesOn hround hrest ih =>
    have hdone := h.round hs
    rw [hround] at hdone
    obtain ⟨-, hgoes, hs₂, hless⟩ := hdone
    obtain ⟨t, ht, hidles⟩ := hidles
    rcases List.mem_cons.mp ht with rfl | ht
    · obtain ⟨x, u, hx, hsame⟩ := hidles
      cases hx.symm.trans hgoes
      omega
    · obtain ⟨e, u, hidle, rfl⟩ := ih hs₂ ⟨t, ht, hidles⟩
      exact ⟨e, u, hidle, rfl⟩

/-- Where a loop fails, a look failed, or an element, or an element took nothing. -/
theorem Course.of_error (h : loop.Advances) (hcourse : loop.Course s begun result)
    (hs : s.stream.Sound) {e : Error} {u : PassState Reader} (hresult : result = .error e u) :
    (∃ t, loop.look t = .error e u) ∨ (∃ t ∈ begun, loop.element t = .error e u) ∨
      ∃ t ∈ begun, loop.Idles t := by
  induction hcourse with
  | @ends s begun result hround =>
    have hdone := h.round hs
    rw [hround, hresult] at hdone
    cases begun with
    | none =>
      obtain ⟨e', v, hlook, hv⟩ | ⟨v, hv⟩ := hdone
      · cases hv
        exact .inl ⟨s, hlook⟩
      · cases hv
    | some s₁ =>
      obtain ⟨-, ⟨e', v, hfails, hv⟩ | ⟨x, v, hlast, hv⟩ | ⟨x, v, e', hx, hsame, -, hv⟩⟩ := hdone
      · cases hv
        exact .inr (.inl ⟨s₁, List.mem_singleton_self _, hfails⟩)
      · cases hv
      · exact .inr (.inr ⟨s₁, List.mem_singleton_self _, x, v, hx, hsame⟩)
  | @goesOn s s₁ s₂ x begun result hround hrest ih =>
    have hdone := h.round hs
    rw [hround] at hdone
    have hrestFails : result = .error e u := by
      cases result with
      | ok found v => cases hresult
      | error e' v => exact hresult
    rcases ih hdone.2.2.1 hrestFails with hlook | ⟨t, ht, hfails⟩ | ⟨t, ht, hidles⟩
    · exact .inl hlook
    · exact .inr (.inl ⟨t, List.mem_cons_of_mem _ ht, hfails⟩)
    · exact .inr (.inr ⟨t, List.mem_cons_of_mem _ ht, hidles⟩)

end

/-! ## The loop of the pass -/

/-- The repetition of the pass: it compares the bits that remain, with those in front of the look. -/
def run (loop : Loop α) (idle : Error) : PassM Reader (List α × Flow) :=
  toEnd loop.least loop.order idle loop.element

/-- The repetition of the pass goes round as the loop does. -/
theorem Advances.run_eq (h : loop.Advances) {idle : Error}
    (hidle : loop.idle = none ∨ loop.idle = some idle) (hs : s.stream.Sound) :
    loop.run idle s =
      match loop.round s with
      | .ends _ result => result
      | .goesOn _ x s₂ => behind x (loop.run idle s₂) := by
  rw [run, toEnd, Loop.round, ← look]
  cases hlook : loop.look s with
  | error e t => rfl
  | ok atEnd s₁ =>
    obtain ⟨hs₁, hremaining, -⟩ := look_eq_ok h.least hs hlook
    cases atEnd with
    | true => rfl
    | false =>
      dsimp only
      cases hx : loop.element s₁ with
      | error e t => rfl
      | ok step s₂ =>
        have hfrom : Reader.From s₁.stream s₂.stream := h.element _ _ _ _ (.refl hs₁) hx
        have hmark := hfrom.mark_eq_iff hs₁
        have hle := hfrom.remaining_le
        cases step with
        | last x => rfl
        | next x =>
          cases hlooks : loop.idle with
          | none =>
            have hless := h.takes hlooks _ _ _ hs₁ hx
            dsimp only
            rw [if_pos (by omega)]
            cases toEnd loop.least loop.order idle loop.element s₂ <;> rfl
          | some e =>
            obtain rfl : e = idle := Option.some.inj (hlooks.symm.trans (hidle.resolve_left
              (by rw [hlooks]; exact Option.some_ne_none e)))
            dsimp only
            by_cases hsame : s₂.stream.mark = s₁.stream.mark
            · have hstays := hmark.mp hsame
              rw [if_neg (by omega), if_pos hsame]
            · have hmoves := mt hmark.mpr hsame
              rw [if_pos (by omega), if_neg hsame]
              dsimp only
              cases toEnd loop.least loop.order e loop.element s₂ <;> rfl

/-- The loop comes to an end, and what comes of it is what the pass gives. -/
theorem Advances.course (h : loop.Advances) {idle : Error}
    (hidle : loop.idle = none ∨ loop.idle = some idle) (hs : s.stream.Sound) :
    ∃ begun, loop.Course s begun (loop.run idle s) := by
  induction hremaining : s.stream.remaining using Nat.strongRecOn generalizing s with
  | ind n ih =>
  subst hremaining
  have hdone := h.round hs
  rw [h.run_eq hidle hs]
  cases hround : loop.round s with
  | ends begun result => exact ⟨_, .ends hround⟩
  | goesOn s₁ x s₂ =>
    rw [hround] at hdone
    obtain ⟨⟨-, hremaining, -⟩, -, hs₂, hless⟩ := hdone
    obtain ⟨begun, hrest⟩ := ih s₂.stream.remaining (by omega) hs₂ rfl
    exact ⟨s₁ :: begun, .goesOn hround hrest⟩

/-- The loop from a state comes to an end. -/
structure Ends (loop : Loop α) (s : PassState Reader)
    (result : EStateM.Result Error (PassState Reader) (List α × Flow))
    (begun : List (PassState Reader)) : Prop where
  course : loop.Course s begun result
  /-- There is no other way for it to go. -/
  only : ∀ begun' result', loop.Course s begun' result' → begun' = begun ∧ result' = result
  /-- It makes at most as many rounds as there are bits. -/
  bounded : begun.length ≤ s.stream.remaining
  /-- Fewer bits remain in front of each element than in front of the one before it. -/
  descends : begun.Pairwise fun t u => u.stream.remaining < t.stream.remaining
  /-- An element behind which the loop might go on leaves fewer bits, or takes nothing. -/
  takes : ∀ t ∈ begun, ∀ x u, loop.element t = .ok (.next x) u →
    u.stream.remaining < t.stream.remaining ∨ loop.Idles t
  /-- An element that takes nothing is reported. -/
  reports : (∃ t ∈ begun, loop.Idles t) → ∃ e u, loop.idle = some e ∧ result = .error e u
  /-- Any other failure is one of a look or of an element. -/
  fails : ∀ e u, result = .error e u → (∃ t, loop.look t = .error e u) ∨
    (∃ t ∈ begun, loop.element t = .error e u) ∨ ∃ t ∈ begun, loop.Idles t

/-- A loop whose elements go forward comes to an end. -/
theorem Advances.ends (h : loop.Advances) {idle : Error}
    (hidle : loop.idle = none ∨ loop.idle = some idle) (hs : s.stream.Sound) :
    ∃ begun, loop.Ends s (loop.run idle s) begun := by
  obtain ⟨begun, hcourse⟩ := h.course hidle hs
  obtain ⟨hbegun, hpairs⟩ := hcourse.descends h hs
  refine ⟨begun, hcourse, fun _ _ => hcourse.unique, hcourse.length_le h hs, hpairs,
    fun t ht x u hx => ?_, hcourse.reports h hs, fun _ _ => hcourse.of_error h hs⟩
  have hfrom : Reader.From t.stream u.stream := h.element _ _ _ _ (.refl (hbegun t ht).1) hx
  rcases hfrom.remaining_le.lt_or_eq with hless | hsame
  · exact .inl hless
  · exact .inr ⟨x, u, hx, hsame⟩

end Loop

/-! ## The loops of a pass -/

section

variable (ctx : PassContext) (head : Header)

/-- Bytes up to the end of the stream. -/
def byteLoop : Loop UInt8 :=
  ⟨8, ctx.options.bitOrder, .next <$> PassM.onStream (Reader.readByte ctx.options.bitOrder), none⟩

/-- Other values of a type up to the end of the stream. -/
def valueLoop (type : ElementType) (width : Nat) : Loop Value :=
  ⟨type.leastBits width, ctx.options.bitOrder, .next <$> element ctx head width type,
    some (.idleElement type.name)⟩

/-- Structures up to the end of the stream. -/
def structLoop (body : Layout) : Loop Value :=
  ⟨leastBits body.certainBits, ctx.options.bitOrder, Step.ofBody <$> fields ctx body,
    some (.idleStructure (head.describe Kind.opening.name))⟩

variable {ctx head}

theorem advances_byteLoop : (byteLoop ctx).Advances where
  least := Nat.zero_lt_succ 7
  element _ := forward_parts.byte.map _
  takes _ := by
    intro s x s' hs h
    obtain ⟨b, hb, -⟩ := map_eq_ok.mp h
    obtain ⟨r, hr, rfl⟩ := PassM.onStream_eq_ok.mp hb
    have := (Reader.readByte_eq_ok hs hr).1.remaining
    show r.remaining < s.stream.remaining
    omega

/-- Where the width of its elements is known, an element needs a bit. -/
theorem leastBits_pos {type : ElementType} {width : Nat}
    (h : PassM.bitWidth ctx type s = .ok width t) : 0 < type.leastBits width := by
  cases type with
  | fixed type => cases type <;> exact Nat.zero_lt_succ _
  | text => exact Nat.zero_lt_succ 7
  | custom use extra => exact Nat.zero_lt_succ 0
  | bit a =>
    obtain ⟨w, s₁, -, h⟩ := bind_eq_ok.mp h
    split at h
    · rename_i hwidth
      cases h
      have hpos := Int64.le_iff_toInt_le.mp hwidth.1
      show 0 < w.toInt.toNat
      have hone : (1 : Int64).toInt = 1 := rfl
      omega
    · cases h

theorem advances_valueLoop {type : ElementType} {width : Nat}
    (h : PassM.bitWidth ctx type s = .ok width t) : (valueLoop ctx head type width).Advances where
  least := leastBits_pos h
  element _ := (forward_parts.element width fun use _ _ => forward_custom use).map _
  takes := nofun

theorem advances_structLoop (body : Layout) : (structLoop ctx head body).Advances where
  least := by
    show 0 < min (max body.certainBits 1) 0xFFFFFFFF
    omega
  element _ :=
    (forward_parts.fields (fun use _ => forward_custom use) (fun _ => trivial) fun _ => trivial).map _
  takes := nofun

end

end Decode

end RecordLayout
