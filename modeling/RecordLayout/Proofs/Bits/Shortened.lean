import RecordLayout.Proofs.Bits.Skipping

/-!
# Streams that end where a read does

A reader takes a byte from its source when it fetches the byte, or before, to see whether there is
one; then the byte stands in the lookahead. What operations fetch, they fetch from a stream as well
that ends behind the last byte they come to. Only a look for another byte can go farther.
-/

namespace RecordLayout

/-! ## Operations by their parts -/

namespace Reader

/-- What the reading operations are made of has the property, looks for the end of the stream
apart. -/
structure Parts (P : {α : Type} → ReadM α → Prop) : Prop where
  pure : ∀ {α : Type} (a : α), P (Pure.pure a)
  throw : ∀ {α : Type} (e : Error), P (MonadExcept.throw e : ReadM α)
  bind : ∀ {α β : Type} {m : ReadM α} {g : α → ReadM β}, P m → (∀ a, P (g a)) → P (m >>= g)
  /-- What is done may depend on the place in the byte and on the bytes that are counted. -/
  position : ∀ {α : Type} {g : Reader → ReadM α},
    (∀ r s, r.used = s.used → r.byteCount = s.byteCount → g r = g s) → (∀ r, P (g r)) →
    P (get >>= g)
  nextBit : ∀ order, P (nextBit order)
  wholeByte : ∀ order : BitOrder, P (do
    match ← pull with
    | none => MonadExcept.throw (.bitsMissing 8 0)
    | some b =>
      modify fun r =>
        { r with
          byteCount := r.byteCount + 1, fetched := r.fetched + 1, bitCount := r.bitCount + 8 }
      Pure.pure (order.logical b))
  run : ∀ count order, P (readRun count order)
  counted : ∀ n, P (modify fun r => { r with bitCount := r.bitCount + n })
  leaveByte : P leaveByte
  reset : P Reader.reset

namespace Parts

variable {P : {α : Type} → ReadM α → Prop} (h : Parts P)
include h

theorem takeBits (order : BitOrder) (width count : Nat) : P (takeBits order width count) := by
  induction count with
  | zero => exact h.pure _
  | succ count ih =>
    refine h.bind (h.nextBit order) fun found => ?_
    cases found with
    | none => exact h.throw _
    | some b => exact h.bind ih fun _ => h.pure _

theorem readBits (width : Nat) (order : BitOrder) : P (readBits width order) := by
  unfold Reader.readBits
  split
  · exact h.bind (h.throw _) fun _ =>
      h.bind (h.takeBits order width width) fun _ => h.bind (h.counted _) fun _ => h.pure _
  · exact h.bind (h.takeBits order width width) fun _ => h.bind (h.counted _) fun _ => h.pure _

/-- A byte is fetched whole where the last one is read to its end, and put together elsewhere. -/
theorem readByte (order : BitOrder) : P (readByte order) := by
  refine h.position (fun r s hused _ => by rw [hused]) fun r => ?_
  split
  · exact h.bind (h.readBits 8 order) fun _ => h.pure _
  · exact h.wholeByte order

theorem readEach (order : BitOrder) (count : Nat) : P (readEach order count) := by
  induction count with
  | zero => exact h.pure _
  | succ count ih => exact h.bind (h.readByte order) fun _ => h.bind ih fun _ => h.pure _

/-- Bytes are taken in a run where the last one is read to its end, and one by one elsewhere. -/
theorem readBytes (count : Nat) (order : BitOrder) : P (readBytes count order) := by
  refine h.position (fun r s hused _ => by rw [hused]) fun r => ?_
  split
  · exact h.readEach order count
  · exact h.run count order

theorem readNumber (size : Nat) (bytes : ByteOrder) (order : BitOrder) :
    P (readNumber size bytes order) :=
  h.bind (h.readEach order size) fun _ => h.pure _

/-- The length of a text is in its first byte or in the bytes behind. -/
theorem readTextLength (leading : UInt8) (order : BitOrder) : P (readTextLength leading order) := by
  unfold Reader.readTextLength
  split
  · exact h.pure _
  · split
    · refine h.bind (h.readEach order _) fun found => ?_
      dsimp only
      split
      · exact h.bind (h.throw _) fun _ => h.pure _
      · exact h.pure _
    · exact h.throw _

theorem readText (order : BitOrder) : P (readText order) := by
  refine h.bind (h.readByte order) fun leading => ?_
  split
  · exact h.pure _
  · refine h.bind (h.readTextLength leading order) fun length =>
      h.bind (h.readBytes length order) fun found => ?_
    split
    · exact h.pure _
    · exact h.throw _

theorem skipBytes (count : Nat) : P (skipBytes count) := by
  induction count with
  | zero => exact h.pure _
  | succ count ih => exact h.bind (h.readByte .lsb0) fun _ => ih

theorem align (n : Nat) : P (align n) :=
  h.bind h.leaveByte fun _ =>
    h.position (fun r s _ hcount => by rw [hcount]) fun _ => h.skipBytes _

end Parts

/-! ## Coming no farther than a limit -/

/-- The bytes taken from the source: those fetched, and one in the lookahead. -/
def taken (r : Reader) : Nat := r.fetched + r.lookahead.toList.length

/-- The second reader has come after the first, of the same stream. -/
structure Past (r t : Reader) : Prop where
  bytes : ∃ bs, r.unfetched = bs ++ t.unfetched ∧ t.fetched = r.fetched + bs.length
  taken : r.taken ≤ t.taken
  failure : t.source.failure = r.source.failure

variable {r r' s t : Reader}

theorem Past.fetched (h : Past r t) : r.fetched ≤ t.fetched := by
  obtain ⟨bs, -, hfetched⟩ := h.bytes
  omega

/-- Where nothing is fetched. -/
theorem past_of_same (hfetched : t.fetched = r.fetched) (hbytes : t.unfetched = r.unfetched)
    (hheld : r.lookahead.toList.length ≤ t.lookahead.toList.length)
    (hfailure : t.source.failure = r.source.failure) : Past r t :=
  ⟨⟨[], hbytes.symm, hfetched⟩, by rw [taken, taken, hfetched]; omega, hfailure⟩

theorem Past.refl (r : Reader) : Past r r := past_of_same rfl rfl (Nat.le_refl _) rfl

/-- The bytes that two operations take are those of the first and of the second. -/
theorem Past.trans (h : Past r s) (h' : Past s t) : Past r t := by
  obtain ⟨bs, hbytes, hfetched⟩ := h.bytes
  obtain ⟨bs', hbytes', hfetched'⟩ := h'.bytes
  refine ⟨⟨bs ++ bs', ?_, ?_⟩, h.taken.trans h'.taken, h'.failure.trans h.failure⟩
  · rw [hbytes, hbytes', List.append_assoc]
  · rw [hfetched', hfetched, List.length_append, Nat.add_assoc]

end Reader

/-- States only go on, and an operation that fetches no byte behind the limit gives what it gives in
every state related to its own. -/
def Fits {σ α : Type} (reader : σ → Reader) (R : σ → σ → Prop) (limit : Nat)
    (m : EStateM Error σ α) : Prop :=
  ∀ s x t, m s = .ok x t → Reader.Past (reader s) (reader t) ∧
    ((reader t).fetched ≤ limit → ∀ s', R s s' → ∃ t', m s' = .ok x t' ∧ R t t')

namespace Fits

variable {σ α β : Type} {reader : σ → Reader} {R : σ → σ → Prop} {limit : Nat}

theorem pure (a : α) : Fits reader R limit (Pure.pure a : EStateM Error σ α) := by
  intro s x t h
  cases h
  exact ⟨.refl _, fun _ s' hs => ⟨s', rfl, hs⟩⟩

theorem throw (e : Error) : Fits reader R limit (MonadExcept.throw e : EStateM Error σ α) := by
  intro s x t h
  cases h

/-- What follows an operation matters only for the results that the operation can give. -/
theorem bind_of_ok {m : EStateM Error σ α} {g : α → EStateM Error σ β} (hm : Fits reader R limit m)
    (hg : ∀ a s t, m s = .ok a t → Fits reader R limit (g a)) : Fits reader R limit (m >>= g) := by
  intro s x t h
  obtain ⟨a, s₁, ha, hx⟩ := bind_eq_ok.mp h
  obtain ⟨hpast, hfirst⟩ := hm s a s₁ ha
  obtain ⟨hpast', hthen⟩ := hg a s s₁ ha s₁ x t hx
  refine ⟨hpast.trans hpast', fun hlimit s' hs => ?_⟩
  obtain ⟨s₁', ha', hs₁⟩ := hfirst (hpast'.fetched.trans hlimit) s' hs
  obtain ⟨t', hx', ht⟩ := hthen hlimit s₁' hs₁
  exact ⟨t', (RecordLayout.bind_of_ok ha').trans hx', ht⟩

/-- The first operation stays within the limit too, as the second one only goes on. -/
theorem bind {m : EStateM Error σ α} {g : α → EStateM Error σ β} (hm : Fits reader R limit m)
    (hg : ∀ a, Fits reader R limit (g a)) : Fits reader R limit (m >>= g) :=
  hm.bind_of_ok fun a _ _ _ => hg a

end Fits

namespace Reader

/-- A change of a reader that leaves the bytes to come alone, and counts some as fetched. -/
structure Counts (n : Nat) (u : Reader → Reader) : Prop where
  withBytes : ∀ r source lookahead,
    u (r.withBytes source lookahead) = (u r).withBytes source lookahead
  fetched : ∀ r, (u r).fetched = r.fetched + n

namespace Counts

variable {n : Nat} {u : Reader → Reader} (h : Counts n u) (r : Reader)
include h

theorem source : (u r).source = r.source := by
  rw [show r = r.withBytes r.source r.lookahead from rfl, h.withBytes]
  rfl

theorem lookahead : (u r).lookahead = r.lookahead := by
  rw [show r = r.withBytes r.source r.lookahead from rfl, h.withBytes]
  rfl

theorem unfetched : (u r).unfetched = r.unfetched := by
  rw [Reader.unfetched, h.source, h.lookahead, Reader.unfetched]

theorem taken : (u r).taken = r.taken + n := by
  rw [Reader.taken, h.fetched, h.lookahead, Reader.taken]
  omega

end Counts

/-- The second reader is the first one on a stream that ends behind this many bytes, of which the
first one has taken no more. -/
structure Shortened (limit : Nat) (r r' : Reader) : Prop where
  unfetched : r'.unfetched <+: r.unfetched
  length : r'.fetched + r'.unfetched.length = limit
  taken : r.taken ≤ limit
  ends : r'.source.failure = none
  same : r' = r.withBytes r'.source r'.lookahead

variable {limit : Nat} {r r' t : Reader}

theorem lookahead_of_nil (h : r.unfetched = []) : r.lookahead = none :=
  Option.toList_eq_nil_iff.mp (List.append_eq_nil_iff.mp h).1

theorem length_lookahead_le (r : Reader) : r.lookahead.toList.length ≤ 1 := by
  cases r.lookahead <;> simp

/-- What a look for another byte leaves: if there is a byte, it is taken. -/
theorem hasByte_eq_ok {more : Bool} (h : hasByte r = .ok more t) :
    ∃ source lookahead, t = r.withBytes source lookahead ∧
      lookahead.toList ++ source.bytes = r.unfetched ∧ source.failure = r.source.failure ∧
      lookahead = r.unfetched.head? ∧ more = lookahead.isSome := by
  cases hbytes : r.unfetched with
  | nil =>
    obtain ⟨source, hsource, hfailure, hlook⟩ := hasByte_of_nil hbytes
    rw [h] at hlook
    cases hends : r.source.failure with
    | some message =>
      rw [hends] at hlook
      cases hlook
    | none =>
      rw [hends] at hlook
      cases hlook
      exact ⟨source, none, rfl, by rw [hsource]; rfl, hfailure.trans hends, rfl, rfl⟩
  | cons b bs =>
    cases hlook : r.lookahead with
    | some c =>
      have hcons : c :: r.source.bytes = b :: bs := by rw [← hbytes, unfetched, hlook]; rfl
      obtain ⟨rfl, hsource⟩ := List.cons.inj hcons
      simp only [hasByte, bind_of_ok (get_apply r), hlook] at h
      cases h
      exact ⟨r.source, some c, by rw [← hlook]; rfl, by rw [hsource]; rfl, rfl, rfl, rfl⟩
    | none =>
      obtain ⟨source, hpull, hsource, hfailure⟩ := pull_of_cons hbytes
      simp only [hasByte, bind_of_ok (get_apply r), hlook, bind_of_ok hpull] at h
      cases h
      exact ⟨source, some b, rfl, by rw [hsource]; rfl, hfailure, rfl, rfl⟩

/-- The look for the end may hold a byte, but fetches none. -/
theorem past_of_isExhausted {ended : Bool} (h : isExhausted r = .ok ended t) : Past r t := by
  simp only [isExhausted, bind_of_ok (get_apply r)] at h
  split at h
  · cases h
    exact .refl r
  · obtain ⟨more, s, hmore, h⟩ := bind_eq_ok.mp h
    cases h
    obtain ⟨source, lookahead, rfl, hbytes, hfailure, hhead, -⟩ := hasByte_eq_ok hmore
    refine past_of_same rfl hbytes ?_ hfailure
    cases hlook : r.lookahead with
    | none => exact Nat.zero_le _
    | some b =>
      rw [unfetched, hlook] at hhead
      subst hhead
      rfl

namespace Shortened

theorem used (h : Shortened limit r r') : r'.used = r.used := by rw [h.same, withBytes]

theorem byteCount (h : Shortened limit r r') : r'.byteCount = r.byteCount := by
  rw [h.same, withBytes]

theorem fetched (h : Shortened limit r r') : r'.fetched = r.fetched := by rw [h.same, withBytes]

/-- A limit moves along with the bytes that are counted as fetched. -/
theorem update (h : Shortened limit r r') {u : Reader → Reader} {n : Nat} (hu : Counts n u) :
    Shortened (limit + n) (u r) (u r') where
  unfetched := by
    rw [hu.unfetched, hu.unfetched]
    exact h.unfetched
  length := by
    have hlength := h.length
    rw [hu.unfetched, hu.fetched]
    omega
  taken := by
    rw [hu.taken]
    exact Nat.add_le_add_right h.taken n
  ends := by
    rw [hu.source]
    exact h.ends
  same := by
    rw [hu.source, hu.lookahead, ← hu.withBytes, ← h.same]

/-- Where the readers have their bytes makes no difference, as long as the first one has none from
behind the limit. -/
theorem moved (h : Shortened limit r r') {source source' : Source}
    {lookahead lookahead' : Option UInt8}
    (hbytes : lookahead.toList ++ source.bytes = r.unfetched)
    (hbytes' : lookahead'.toList ++ source'.bytes = r'.unfetched)
    (hends : source'.failure = none) (htaken : r.fetched + lookahead.toList.length ≤ limit) :
    Shortened limit (r.withBytes source lookahead) (r'.withBytes source' lookahead') where
  unfetched := by
    simp only [Reader.unfetched, withBytes, hbytes, hbytes']
    exact h.unfetched
  length := by
    simp only [Reader.unfetched, withBytes, hbytes']
    exact h.length
  taken := htaken
  ends := hends
  same := by
    rw [h.same]
    rfl

theorem unfetched_nil (h : Shortened limit r r') (hbytes : r.unfetched = []) :
    r'.unfetched = [] := by
  have hprefix := h.unfetched
  rwa [hbytes, List.prefix_nil] at hprefix

/-- Below the limit both readers pull the same byte, which is still to be counted. -/
theorem pull_byte (h : Shortened (limit + 1) r r') (hlimit : r.fetched ≤ limit) {b : UInt8}
    {bs : List UInt8} (hbytes : r.unfetched = b :: bs) :
    ∃ source source', pull r = .ok (some b) (r.withBytes source none) ∧
      pull r' = .ok (some b) (r'.withBytes source' none) ∧
      Shortened limit (r.withBytes source none) (r'.withBytes source' none) := by
  have hlength := h.length
  have hfetched := h.fetched
  have hprefix := h.unfetched
  cases hbytes' : r'.unfetched with
  | nil =>
    rw [hbytes', List.length_nil] at hlength
    omega
  | cons b' bs' =>
    rw [hbytes, hbytes', List.cons_prefix_cons] at hprefix
    obtain ⟨rfl, hprefix⟩ := hprefix
    obtain ⟨source, hpull, hsource, -⟩ := pull_of_cons hbytes
    obtain ⟨source', hpull', hsource', hfailure'⟩ := pull_of_cons hbytes'
    refine ⟨source, source', hpull, hpull', ?_, ?_, hlimit, hfailure'.trans h.ends, ?_⟩
    · simpa only [Reader.unfetched, withBytes, hsource, hsource', Option.toList_none,
        List.nil_append] using hprefix
    · rw [hbytes', List.length_cons] at hlength
      simp only [Reader.unfetched, withBytes, hsource', Option.toList_none, List.nil_append]
      omega
    · rw [h.same]
      rfl

/-- Where the stream of the first reader ends, that of the second one ends too. -/
theorem pull_nothing (h : Shortened limit r r') (hbytes : r.unfetched = [])
    (hends : r.source.failure = none) :
    ∃ source source', pull r = .ok none (r.withBytes source none) ∧
      pull r' = .ok none (r'.withBytes source' none) ∧
      Shortened limit (r.withBytes source none) (r'.withBytes source' none) := by
  have hbytes' := h.unfetched_nil hbytes
  obtain ⟨source, hsource, -, hpull⟩ := pull_of_spent hbytes
  obtain ⟨source', hsource', hfailure', hpull'⟩ := pull_of_spent hbytes'
  rw [hends] at hpull
  rw [h.ends] at hpull'
  exact ⟨source, source', hpull, hpull', h.moved (by rw [hsource, hbytes]; rfl)
    (by rw [hsource', hbytes']; rfl) (hfailure'.trans h.ends)
    ((Nat.le_add_right _ _).trans h.taken)⟩

/-- Looking for the end of the stream. The look tells the second reader as much as the first, unless
the first one takes a byte from behind the end of the second one's stream. -/
theorem isExhausted (h : Shortened limit r r') {ended : Bool}
    (hrun : Reader.isExhausted r = .ok ended t) :
    (∃ t', Reader.isExhausted r' = .ok ended t' ∧ Shortened limit t t') ∨
      ended = false ∧ limit < t.taken ∧ ∃ t', Reader.isExhausted r' = .ok true t' ∧
        t'.fetched = limit := by
  simp only [Reader.isExhausted, bind_of_ok (get_apply r)] at hrun
  simp only [Reader.isExhausted, bind_of_ok (get_apply r'), h.used]
  by_cases hused : r.used < 8
  · simp only [hused, if_true] at hrun ⊢
    cases hrun
    exact .inl ⟨r', rfl, h⟩
  · simp only [hused, if_false] at hrun ⊢
    obtain ⟨more, s, hmore, hrun⟩ := bind_eq_ok.mp hrun
    cases hrun
    have hlength := h.length
    have hfetched := h.fetched
    obtain ⟨source, lookahead, rfl, hkept, -, rfl, rfl⟩ := hasByte_eq_ok hmore
    cases hbytes : r.unfetched with
    | nil =>
      have hbytes' : r'.unfetched = [] := h.unfetched_nil hbytes
      obtain ⟨source', hsource', hfailure', hlook'⟩ := hasByte_of_nil hbytes'
      rw [h.ends] at hlook'
      rw [hbytes] at hkept
      exact .inl ⟨_, bind_of_ok hlook', h.moved (hkept.trans hbytes.symm)
        (by rw [hsource', hbytes']; rfl) (hfailure'.trans h.ends)
        ((Nat.le_add_right _ _).trans h.taken)⟩
    | cons b bs =>
      rw [hbytes] at hkept
      cases hbytes' : r'.unfetched with
      | nil =>
        obtain ⟨source', -, hfailure', hlook'⟩ := hasByte_of_nil hbytes'
        rw [h.ends] at hlook'
        rw [hbytes', List.length_nil] at hlength
        exact .inr ⟨rfl, show limit < r.fetched + 1 by omega, _, bind_of_ok hlook',
          show r'.fetched = limit by omega⟩
      | cons b' bs' =>
        obtain ⟨source', lookahead', hlook', hsource', hfailure'⟩ := hasByte_of_cons hbytes'
        rw [hbytes', List.length_cons] at hlength
        exact .inl ⟨_, bind_of_ok hlook', h.moved (hkept.trans hbytes.symm) hsource'
          (hfailure'.trans h.ends) (show r.fetched + 1 ≤ limit by omega)⟩

end Shortened

/-! ## Operations -/

/-- A change that fetches nothing stays within any limit. -/
theorem fits_modify {u : Reader → Reader} (hu : Counts 0 u) :
    Fits id (Shortened limit) limit (modify u : ReadM PUnit) := by
  intro r x t h
  cases h
  have hpast : Past r (u r) := past_of_same (hu.fetched r) (hu.unfetched r)
    (by rw [hu.lookahead]) (by rw [hu.source])
  exact ⟨hpast, fun _ r' hr => ⟨u r', rfl, hr.update hu⟩⟩

/-- A byte is pulled and counted. -/
theorem fits_pull {α : Type} {otherwise : ReadM α}
    (hotherwise : Fits id (Shortened limit) limit otherwise) {u : UInt8 → Reader → Reader}
    (hu : ∀ b, Counts 1 (u b)) (x : UInt8 → α) :
    Fits id (Shortened limit) limit (do
      match ← pull with
      | none => otherwise
      | some b =>
        modify (u b)
        pure (x b)) := by
  intro r y t h
  obtain ⟨found, s, hpull, h⟩ := bind_eq_ok.mp h
  cases hbytes : r.unfetched with
  | nil =>
    -- The longer stream has no byte left, and so the shorter one has none.
    obtain ⟨source, hsource, hfailure, hspent⟩ := pull_of_spent hbytes
    rw [hpull] at hspent
    cases hends : r.source.failure with
    | some message =>
      rw [hends] at hspent
      cases hspent
    | none =>
      rw [hends] at hspent
      cases hspent
      obtain ⟨hpast, hrun⟩ := hotherwise _ _ _ h
      have hsame : Past r (r.withBytes source none) := by
        refine past_of_same rfl ?_ ?_ hfailure
        · rw [hbytes, unfetched, withBytes, hsource]
          rfl
        · rw [lookahead_of_nil hbytes]
          exact Nat.le_refl _
      refine ⟨hsame.trans hpast, fun hlimit r' hr => ?_⟩
      obtain ⟨source₁, source', hpull₁, hpull', hr₁⟩ := hr.pull_nothing hbytes hends
      cases hpull.symm.trans hpull₁
      obtain ⟨t', hrun', ht⟩ := hrun hlimit _ hr₁
      exact ⟨t', (bind_of_ok hpull').trans hrun', ht⟩
  | cons b bs =>
    obtain ⟨source, hpull₁, hsource, hfailure⟩ := pull_of_cons hbytes
    change pull r = .ok (some b) (r.withBytes source none) at hpull₁
    cases hpull.symm.trans hpull₁
    cases h
    have hcounted := (hu b).fetched (r.withBytes source none)
    refine ⟨⟨⟨[b], ?_, hcounted⟩, ?_, ?_⟩, fun hlimit r' hr => ?_⟩
    · show r.unfetched = [b] ++ (u b (r.withBytes source none)).unfetched
      rw [(hu b).unfetched, hbytes, ← hsource]
      rfl
    · show r.fetched + r.lookahead.toList.length ≤ (u b (r.withBytes source none)).taken
      rw [(hu b).taken]
      exact Nat.add_le_add_left r.length_lookahead_le _
    · show (u b (r.withBytes source none)).source.failure = r.source.failure
      rw [(hu b).source]
      exact hfailure
    -- The byte that is pulled is below the limit, so the shorter stream has it too.
    · change (u b (r.withBytes source none)).fetched ≤ limit at hlimit
      change _ = r.fetched + 1 at hcounted
      obtain ⟨below, rfl⟩ : ∃ below, limit = below + 1 := ⟨limit - 1, by omega⟩
      obtain ⟨source₁, source', hpull₁, hpull', hr₁⟩ := hr.pull_byte (by omega) hbytes
      cases hpull.symm.trans hpull₁
      exact ⟨_, bind_of_ok hpull', hr₁.update (hu b)⟩

theorem fits_nextBit (order : BitOrder) : Fits id (Shortened limit) limit (nextBit order) := by
  intro r x t h
  simp only [nextBit, bind_of_ok (get_apply r)] at h
  by_cases hused : r.used < 8
  · simp only [hused, if_true] at h
    cases h
    refine ⟨past_of_same rfl rfl (Nat.le_refl _) rfl, fun _ r' hr => ?_⟩
    have hnext := hr.update (n := 0) (u := fun r => { r with used := r.used + 1 })
      ⟨fun _ _ _ => rfl, fun _ => rfl⟩
    refine ⟨_, ?_, hnext⟩
    simp only [nextBit, bind_of_ok (get_apply r'), hr.used, hused, if_true]
    rw [hr.same]
    rfl
  · simp only [hused, if_false] at h
    have hpull : Fits id (Shortened limit) limit _ :=
      fits_pull (.pure none)
        (u := fun b r => { r with
          current := b, used := 1, byteCount := r.byteCount + 1, fetched := r.fetched + 1 })
        (fun _ => ⟨fun _ _ _ => rfl, fun _ => rfl⟩) fun b => some (order.bit b 0)
    obtain ⟨hpast, hrun⟩ := hpull r x t h
    refine ⟨hpast, fun hlimit r' hr => ?_⟩
    simp only [nextBit, bind_of_ok (get_apply r'), hr.used, hused, if_false]
    exact hrun hlimit r' hr

/-- A run comes as far as it is long. -/
theorem fits_readRun (count : Nat) (order : BitOrder) :
    Fits id (Shortened limit) limit (readRun count order) := by
  intro r bs t h
  obtain ⟨hle, rfl, rfl⟩ := readRun_eq_ok_iff.mp h
  have hone := r.length_lookahead_le
  have htaken : (r.pastRun count).taken =
      r.fetched + count + (if count = 0 then r.lookahead else none).toList.length := rfl
  refine ⟨⟨⟨r.unfetched.take count, ?_, ?_⟩, ?_, rfl⟩, fun hlimit r' hr => ?_⟩
  · show r.unfetched = r.unfetched.take count ++ (r.pastRun count).unfetched
    rw [(run_eq r count).2, List.take_append_drop]
  · show r.fetched + count = r.fetched + (r.unfetched.take count).length
    rw [List.length_take, Nat.min_eq_left hle]
  · show r.fetched + r.lookahead.toList.length ≤ (r.pastRun count).taken
    rw [htaken]
    split <;> omega
  · replace hlimit : r.fetched + count ≤ limit := hlimit
    have hlength := hr.length
    have hfetched := hr.fetched
    obtain ⟨more, hmore⟩ := hr.unfetched
    have hle' : count ≤ r'.unfetched.length := by omega
    refine ⟨r'.pastRun count, readRun_eq_ok_iff.mpr ⟨hle', ?_, rfl⟩, ?_, ?_, ?_, hr.ends, ?_⟩
    · rw [← hmore, List.take_append_of_le_length hle']
    · rw [(run_eq r' count).2, (run_eq r count).2]
      exact hr.unfetched.drop count
    · rw [(run_eq r' count).2, List.length_drop]
      show r'.fetched + count + (r'.unfetched.length - count) = limit
      omega
    · have hheld : r.fetched + r.lookahead.toList.length ≤ limit := hr.taken
      rw [htaken]
      split
      · omega
      · simpa using hlimit
    · rw [hr.same]
      rfl

/-- What the operations fetch, looks for the end of the stream apart. -/
theorem fits_parts : Parts fun m => Fits id (Shortened limit) limit m where
  pure := .pure
  throw := .throw
  bind := .bind
  position hg h := by
    intro r x t hrun
    obtain ⟨hpast, hfirst⟩ := h r r x t hrun
    refine ⟨hpast, fun hlimit r' hr => ?_⟩
    obtain ⟨t', hrun', ht⟩ := hfirst hlimit r' hr
    refine ⟨t', ?_, ht⟩
    rw [hg r r' hr.used.symm hr.byteCount.symm] at hrun'
    exact hrun'
  nextBit := fits_nextBit
  wholeByte order := fits_pull (.throw _)
    (u := fun _ r => { r with
      byteCount := r.byteCount + 1, fetched := r.fetched + 1, bitCount := r.bitCount + 8 })
    (fun _ => ⟨fun _ _ _ => rfl, fun _ => rfl⟩) fun b => order.logical b
  run := fits_readRun
  counted n := fits_modify ⟨fun _ _ _ => rfl, fun _ => rfl⟩
  leaveByte := fits_modify ⟨fun _ _ _ => rfl, fun _ => rfl⟩
  reset := fits_modify ⟨fun _ _ _ => rfl, fun _ => rfl⟩

end Reader

end RecordLayout
