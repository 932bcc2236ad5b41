import RecordLayout.Proofs.Pass.Loops

/-!
# Bits that are certainly taken

The end of an unbounded array of structures is found by a number of bits: those that one structure
certainly takes, counted from the constant widths, lengths and skips of its declarations alone. A
pass over a layout that comes to its end has taken at least these bits, whatever the parameters that
are only known during the pass come to, at any place within a byte, and whatever custom types do. So
where fewer bits are ahead no further structure can be read, and the array that ends there has lost
none.

The count is made in words of 64 bits, which stay full once they are.
-/

namespace RecordLayout

/-! ## The count in words -/

namespace Layout

/-- A number in a word of 64 bits, which is full from there on. -/
def inWord (n : Nat) : Nat := min n (2 ^ 64 - 1)

/-- The bits that are certain of a layout, behind a number of others, counted in words. -/
def countFrom (bits : Nat) : Layout → Nat
  | done => bits
  | item _ decl rest =>
    rest.countFrom (inWord (bits + inWord (certainCount decl.length * decl.certainBits)))
  | group _ length body _ rest =>
    rest.countFrom (inWord (bits + inWord (certainCount length * body.countFrom 0)))

/-- Counts that saturate are those of the sum, saturated. -/
theorem inWord_add_inWord_mul (bits count n : Nat) :
    inWord (inWord bits + inWord (count * inWord n)) = inWord (bits + count * n) := by
  unfold inWord
  rcases Nat.le_total n (2 ^ 64 - 1) with hn | hn
  · rw [Nat.min_eq_left hn]
    omega
  · rw [Nat.min_eq_right hn]
    rcases Nat.eq_zero_or_pos count with rfl | hpos
    · omega
    · have hfull := Nat.le_mul_of_pos_left (2 ^ 64 - 1) hpos
      have hmore := Nat.mul_le_mul_left count hn
      omega

/-- The word is full exactly where the number does not fit it. -/
theorem countFrom_inWord (l : Layout) (bits : Nat) :
    l.countFrom (inWord bits) = inWord (bits + l.certainBits) := by
  induction l generalizing bits with
  | done => rfl
  | item head decl rest ih =>
    have hone := inWord_add_inWord_mul bits 1 (certainCount decl.length * decl.certainBits)
    rw [Nat.one_mul, Nat.one_mul] at hone
    have hsame : inWord (inWord bits + inWord (certainCount decl.length * decl.certainBits)) =
        inWord (bits + certainCount decl.length * decl.certainBits) := by
      rw [← hone]
      unfold inWord
      omega
    rw [countFrom, hsame, ih, certainBits, Nat.add_assoc]
  | group head length body closing rest ihbody ihrest =>
    have hbody : body.countFrom 0 = inWord body.certainBits := by
      simpa [inWord] using ihbody 0
    rw [countFrom, hbody, inWord_add_inWord_mul, ihrest, certainBits, Nat.add_assoc]

theorem countFrom_zero (l : Layout) : l.countFrom 0 = inWord l.certainBits := by
  simpa [inWord] using l.countFrom_inWord 0

end Layout

/-- Where an element of `width` bits cannot begin, fewer bits are ahead. -/
theorem Reader.lt_of_atEndFor {r r' : Reader} (hs : r.Sound) {width : Nat} {order : BitOrder}
    (h : atEndFor width order r = .ok true r') : r.remaining < width := by
  cases hfailure : r.source.failure with
  | none =>
    obtain ⟨r₁, htakes, hat⟩ := atEndFor_of_ends hs hfailure width order
    rw [h] at hat
    split at hat
    · cases hat
    · rename_i hroom
      omega
  | some message =>
    cases hbytes : r.unfetched with
    | nil =>
      obtain ⟨source, -, -, hbyte⟩ := hasByte_of_nil hbytes
      rw [hfailure] at hbyte
      rw [atEndFor, bind_of_error hbyte] at h
      cases h
    | cons b bs =>
      obtain ⟨source, lookahead, hbyte, -, -⟩ := hasByte_of_cons hbytes
      rw [atEndFor, bind_of_ok hbyte] at h
      cases h

namespace Decode

variable {α β : Type} {ctx : PassContext} {head : Header} {s s' : PassState Reader}

/-! ## What an operation needs -/

/-- Where the operation succeeds with such a result, it has taken at least so many bits. -/
def Needs (n : Nat) (G : α → Prop) (m : PassM Reader α) : Prop :=
  ∀ s x s', s.stream.Sound → m s = .ok x s' →
    s'.stream.Sound ∧ (G x → s'.stream.remaining + n ≤ s.stream.remaining)

/-- The pass goes on behind an element. -/
def Step.GoesOn : Step α → Prop
  | .next _ => True
  | .last _ => False

section

variable {n k : Nat} {G : α → Prop} {H : β → Prop}

/-- A pass goes forward only. -/
theorem Needs.of_forward {m : PassM Reader α} (h : ∀ start, Keeps (Goes start) m) :
    Needs 0 G m := by
  intro s x s' hs hrun
  have hfrom : Reader.From s.stream s'.stream := h _ _ _ _ (.refl hs) hrun
  exact ⟨hfrom.sound, fun _ => hfrom.remaining_le⟩

theorem Needs.mono {m : PassM Reader α} (h : Needs n G m) (hle : k ≤ n) : Needs k G m := by
  intro s x s' hs hrun
  obtain ⟨hs', hneeds⟩ := h s x s' hs hrun
  refine ⟨hs', fun hgoes => ?_⟩
  have := hneeds hgoes
  omega

/-- What follows an operation needs its bits behind those of the operation. -/
theorem Needs.bind {m : PassM Reader α} {f : α → PassM Reader β} (hm : Needs n G m)
    (hf : ∀ x s t, m s = .ok x t → Needs k H (f x))
    (hgoes : ∀ x s y t, f x s = .ok y t → H y → G x) : Needs (n + k) H (m >>= f) := by
  intro s y s' hs hrun
  obtain ⟨x, s₁, hx, hrun⟩ := bind_eq_ok.mp hrun
  obtain ⟨hs₁, hneeds₁⟩ := hm s x s₁ hs hx
  obtain ⟨hs', hneeds⟩ := hf x s s₁ hx s₁ y s' hs₁ hrun
  refine ⟨hs', fun hy => ?_⟩
  have := hneeds₁ (hgoes x s₁ y s' hrun hy)
  have := hneeds hy
  omega

/-- What comes first may need nothing. -/
theorem Needs.behind {m : PassM Reader α} {f : α → PassM Reader β}
    (hm : ∀ start, Keeps (Goes start) m) (hf : ∀ x s t, m s = .ok x t → Needs n H (f x)) :
    Needs n H (m >>= f) := by
  have h := (Needs.of_forward hm (G := fun _ => True)).bind hf fun _ _ _ _ _ _ => trivial
  rwa [Nat.zero_add] at h

theorem Needs.map {m : PassM Reader α} (f : α → β) (hm : Needs n G m)
    (hgoes : ∀ x, H (f x) → G x) : Needs n H (f <$> m) := by
  intro s y s' hs hrun
  obtain ⟨x, hx, rfl⟩ := map_eq_ok.mp hrun
  obtain ⟨hs', hneeds⟩ := hm s x s' hs hx
  exact ⟨hs', fun hy => hneeds (hgoes x hy)⟩

/-- An operation of the stream that takes a known number of bits. -/
theorem needs_onStream {m : ReadM α}
    (h : ∀ r x r', r.Sound → m r = .ok x r' → Reader.Takes n r r') :
    Needs n G (PassM.onStream m) := by
  intro s x s' hs hrun
  obtain ⟨r, hr, rfl⟩ := PassM.onStream_eq_ok.mp hrun
  have htakes := h _ _ _ hs hr
  have hremaining := htakes.remaining
  refine ⟨htakes.sound, fun _ => ?_⟩
  show r.remaining + n ≤ s.stream.remaining
  omega

end

/-- A number of elements, each of which needs some bits. -/
theorem needs_times {element : PassM Reader (Step α)} {n : Nat}
    (h : Needs n Step.GoesOn element) (count : Nat) :
    Needs (count * n) (fun found : List α × Flow => found.2 = .goOn) (times element count) := by
  rintro s ⟨xs, flow⟩ s' hs hrun
  have key := times_induction element
    (Q := fun count s _ flow s' => s.stream.Sound → s'.stream.Sound ∧
      (flow = .goOn → s'.stream.remaining + count * n ≤ s.stream.remaining))
    (fun s hs => ⟨hs, fun _ => by omega⟩)
    (fun count s x s' hx hs => ⟨(h _ _ _ hs hx).1, nofun⟩)
    (fun count s x s₁ xs flow s' hx hrest hs => by
      obtain ⟨hs₁, hone⟩ := h _ _ _ hs hx
      obtain ⟨hs', hall⟩ := hrest hs₁
      refine ⟨hs', fun hflow => ?_⟩
      have := hone trivial
      have := hall hflow
      rw [Nat.succ_mul]
      omega)
    hrun
  exact key hs

/-- An array whose length is constant has that many elements, and only then some are certain. -/
theorem certainCount_le {length : Length} {env : Expr.Env} {count : Option Nat}
    (h : ctx.count env length = .ok count) :
    Layout.certainCount (some length) ≤ count.getD 0 := by
  cases length with
  | const n =>
    cases PassContext.count_of_const h
    exact Nat.le_refl _
  | computed e => exact Nat.zero_le _
  | unbounded => exact Nat.zero_le _

/-- Elements of an array, each of which needs some bits. -/
theorem needs_elements {element : PassM Reader (Step α)} {n : Nat}
    (h : Needs n Step.GoesOn element) (hforward : ∀ start, Keeps (Goes start) element) (least : Nat)
    (idle : Error) (count : Option Nat) :
    Needs (count.getD 0 * n) (fun found : List α × Flow => found.2 = .goOn)
      (elements ctx least idle element count) := by
  cases count with
  | some count => exact needs_times h count
  | none =>
    rw [Option.getD_none, Nat.zero_mul]
    exact Needs.of_forward fun _ => forward_toEnd (hforward _) least idle

/-- Values in a row do not end a record. -/
theorem goOn_of_next {m : PassM Reader α} {least : Nat} {idle : Error} {count : Option Nat}
    {xs : List α} {flow : Flow}
    (h : elements ctx least idle (Step.next <$> m) count s = .ok (xs, flow) s') : flow = .goOn := by
  have hnext : ∀ s x s', (Step.next <$> m) s ≠ .ok (.last x) s' := by
    intro s x s' hlast
    obtain ⟨y, -, hy⟩ := map_eq_ok.mp hlast
    cases hy
  cases count with
  | some count =>
    exact times_induction (Step.next <$> m) (Q := fun _ _ _ flow _ => flow = .goOn) (fun _ => rfl)
      (fun _ s x s' hlast => absurd hlast (hnext s x s'))
      (fun _ _ _ _ _ _ _ _ hrest => hrest) h
  | none =>
    exact toEnd_induction (Step.next <$> m) (P := fun _ _ flow _ => flow = .goOn)
      (fun _ _ _ => rfl) (fun _ s x s' _ hlast => absurd hlast (hnext s x s'))
      (fun _ _ _ _ _ _ _ _ _ _ hrest => hrest) h

/-! ## Declarations -/

/-- One value takes the bits that are certain of it, whatever its width comes to. -/
theorem needs_element {type : ElementType} {width : Nat} {env : Expr.Env}
    (hwidth : type.width env = .ok width) (length : Option Length) {G : Value → Prop} :
    Needs (Decl.value type length).certainBits G (element ctx head width type) := by
  by_cases hcustom : ∃ use extra, type = .custom use extra
  · obtain ⟨use, extra, rfl⟩ := hcustom
    exact Needs.of_forward fun _ => forward_parts.element width fun use _ _ => forward_custom use
  · intro s v s' hs hrun
    obtain ⟨hfits, r, rfl, hreads⟩ :=
      element_sound hs hwidth (fun use extra htype => hcustom ⟨use, extra, htype⟩) hrun
    have hcertain := ElementType.certainBits_le hwidth length
    have hleast := ElementType.leastBits_le_spell head.order hfits
    have hremaining := hreads.remaining
    refine ⟨hreads.sound, fun _ => ?_⟩
    show r.remaining + _ ≤ s.stream.remaining
    omega

/-- An array of bytes needs the bits of as many bytes as are certain. -/
theorem needs_byteArray {type : ElementType} (hbyte : type.isByte = true) (length : Option Length)
    (count : Option Nat) {G : List UInt8 → Prop} :
    Needs (count.getD 0 * (Decl.value type length).certainBits) G
      (byteArray ctx type count) := by
  cases count with
  | none =>
    rw [Option.getD_none, Nat.zero_mul]
    exact Needs.of_forward fun _ => (forward_toEnd (forward_parts.byte.map _) _ _).map _
  | some count =>
    have hbits : (Decl.value type length).certainBits = 8 := by
      cases type with
      | fixed type =>
        cases type with
        | byte | ubyte => rfl
        | _ => cases hbyte
      | _ => cases hbyte
    rw [hbits, Option.getD_some, Nat.mul_comm]
    exact needs_onStream fun r bs r' hr h => (Reader.readBytes_eq_ok hr h).1

/-- A value needs what its type and its length are certain to take. -/
theorem needs_value (type : ElementType) (length : Option Length) {G : Value → Prop} :
    Needs (Layout.certainCount length * (Decl.value type length).certainBits) G
      (value ctx head type length) := by
  refine Needs.behind (fun _ => forward_parts.bitWidth type) fun width s t hrun => ?_
  have hwidth := ((PassM.computes_bitWidth ctx s type).eq_ok hrun).1
  cases length with
  | none =>
    rw [show Layout.certainCount none = 1 from rfl, Nat.one_mul]
    exact needs_element hwidth none
  | some length =>
    refine Needs.behind (fun _ => forward_parts.arrayCount length) fun count s t hrun => ?_
    have hcount := certainCount_le ((PassM.computes_arrayCount ctx s length).eq_ok hrun).1
    refine Needs.mono ?_ (Nat.mul_le_mul_right _ hcount)
    split
    · rename_i hbyte
      exact (needs_byteArray hbyte _ count).map _ (G := fun _ => True) fun _ _ => trivial
    · have hone : Needs _ Step.GoesOn (Step.next <$> element ctx head width type) :=
        (needs_element hwidth (some length) (G := fun _ => True)).map _ fun _ _ => trivial
      have hforward : ∀ start, Keeps (Goes start) (Step.next <$> element ctx head width type) :=
        fun _ => (forward_parts.element width fun use _ _ => forward_custom use).map _
      have hall : Needs _ _ (elements ctx _ _ _ count) :=
        needs_elements hone hforward (type.leastBits width) (.idleElement type.name) count
      rintro s v s' hs hrun
      obtain ⟨⟨xs, flow⟩, s₁, hxs, hpure⟩ := bind_eq_ok.mp hrun
      cases hpure
      obtain ⟨hs', hneeds⟩ := hall _ _ _ hs hxs
      exact ⟨hs', fun _ => hneeds (goOn_of_next hxs)⟩

/-- A declaration needs its certain bits. -/
theorem needs_item (decl : Decl) {G : Option Field → Prop} :
    Needs (Layout.certainCount decl.length * decl.certainBits) G (item ctx head decl) := by
  have hforward : ∀ start, Keeps (Goes start) (item ctx head decl) :=
    fun _ => forward_parts.item (fun use _ => forward_custom use) fun _ => trivial
  cases decl with
  | value type length =>
    have hlater : ∀ v : Value, ∀ start, Keeps (Goes start) (do
        if length.isNone then PassM.register head.info v
        pure (some (Field.new head.info v)) : PassM Reader (Option Field)) := by
      intro v start
      split
      · exact (goes_register _ _).bind fun _ => Keeps.pure _
      · exact Keeps.pure _
    have hvalue : Needs _ (fun _ => True) (value ctx head type length) := needs_value type length
    exact hvalue.bind (k := 0) (fun v _ _ _ => Needs.of_forward (hlater v))
      fun _ _ _ _ _ _ => trivial
  | skip a =>
    cases a with
    | computed e =>
      rw [show (Decl.skip (.computed e)).certainBits = 0 from rfl, Nat.mul_zero]
      exact Needs.of_forward hforward
    | const n =>
      refine Needs.behind (fun _ => forward_parts.skipCount _) fun count s t hrun => ?_
      obtain ⟨v, hv, hcount⟩ :=
        except_bind_eq_ok.mp ((PassM.computes_skipCount ctx s (.const n)).eq_ok hrun).1
      obtain ⟨htoNat, hpos⟩ := Amount.value_const hv
      rw [PassContext.nonNegative, if_pos hpos] at hcount
      cases hcount
      have hskip : Needs (8 * v.toInt.toNat) (fun _ => True)
          (PassM.onStream (Reader.skipBytes v.toInt.toNat)) :=
        needs_onStream fun r _ r' hr h => Reader.skipBytes_eq_ok hr h
      rw [htoNat] at hskip ⊢
      rw [show Layout.certainCount (Decl.skip (.const n)).length *
        (Decl.skip (.const n)).certainBits = 8 * n.toNat from Nat.one_mul _]
      exact hskip.bind (k := 0) (fun _ _ _ _ => Needs.of_forward fun _ => Keeps.pure _)
        fun _ _ _ _ _ _ => trivial
  | computed | align | reset => exact Needs.of_forward hforward

/-! ## Layouts -/

/-- A structure needs the certain bits of its body, an array of them once for each certain element.
-/
theorem needs_group {body : PassM Reader (List Field × Flow)} {certain : Nat}
    (hbody : Needs certain (fun found => found.2 = .goOn) body)
    (hforward : ∀ start, Keeps (Goes start) body) (length : Option Length) :
    Needs (Layout.certainCount length * certain) (fun found => found.2 = .goOn)
      (group ctx head length certain body) := by
  cases length with
  | none =>
    rw [show Layout.certainCount none = 1 from rfl, Nat.one_mul]
    exact hbody.bind (k := 0) (fun _ _ _ _ => Needs.of_forward fun _ => Keeps.pure _)
      fun _ _ _ _ hpure hflow => by
        cases hpure
        exact hflow
  | some length =>
    refine Needs.behind (fun _ => forward_parts.arrayCount length) fun count s t hrun => ?_
    have hcount := certainCount_le ((PassM.computes_arrayCount ctx s length).eq_ok hrun).1
    refine Needs.mono ?_ (Nat.mul_le_mul_right _ hcount)
    have hone : Needs certain Step.GoesOn (Step.ofBody <$> body) := by
      refine hbody.map _ ?_
      rintro ⟨fields, flow⟩ hgoes
      cases flow with
      | goOn => rfl
      | stop => exact hgoes.elim
    exact (needs_elements hone (fun _ => (hforward _).map _) _ _ count).bind (k := 0)
      (fun _ _ _ _ => Needs.of_forward fun _ => Keeps.pure _) fun _ _ _ _ hpure hflow => by
        cases hpure
        exact hflow

theorem forward_fields (l : Layout) (start : Reader) : Keeps (Goes start) (fields ctx l) :=
  forward_parts.fields (fun use _ => forward_custom use) (fun _ => trivial) fun _ => trivial

/-- A pass that comes to the end of a layout has taken the bits that are certain of it. -/
theorem needs_fields (l : Layout) :
    Needs l.certainBits (fun found => found.2 = .goOn) (fields ctx l) := by
  induction l with
  | done => exact Needs.of_forward fun _ => Keeps.pure _
  | item head decl rest ih =>
    refine Needs.behind (fun _ => forward_parts.endsBefore (fun _ => trivial) _)
      fun ends s t hrun => ?_
    split
    · exact fun s found s' hs hpure => by
        cases hpure
        exact ⟨hs, nofun⟩
    · refine (needs_item decl (G := fun _ => True)).bind (fun node _ _ _ => ?_)
        fun _ _ _ _ _ _ => trivial
      exact ih.bind (k := 0) (fun _ _ _ _ => Needs.of_forward fun _ => Keeps.pure _)
        fun _ _ _ _ hpure hflow => by
          cases hpure
          exact hflow
  | group head length body closing rest ihbody ihrest =>
    refine Needs.behind (fun _ => forward_parts.endsBefore (fun _ => trivial) _)
      fun ends s t hrun => ?_
    split
    · exact fun s found s' hs hpure => by
        cases hpure
        exact ⟨hs, nofun⟩
    · refine (needs_group ihbody (forward_fields body) length).bind (fun found _ _ _ => ?_) ?_
      · obtain ⟨v, flow⟩ := found
        cases flow with
        | stop =>
          exact fun s found s' hs hpure => by
            cases hpure
            exact ⟨hs, nofun⟩
        | goOn =>
          exact ihrest.bind (k := 0) (fun _ _ _ _ => Needs.of_forward fun _ => Keeps.pure _)
            fun _ _ _ _ hpure hflow => by
              cases hpure
              exact hflow
      · rintro ⟨v, flow⟩ s found t hrun hgoes
        cases flow with
        | stop =>
          cases hrun
          cases hgoes
        | goOn => rfl

/-! ## Where an unbounded array of structures ends -/

/-- A structure that is read to its end does not begin in this state. -/
def NoneBegins (ctx : PassContext) (body : Layout) (r : Reader) : Prop :=
  ∀ t : PassState Reader, t.stream = r → ∀ found u, fields ctx body t ≠ .ok (found, .goOn) u

/-- Where fewer bits are left than are certain of an element, none begins. -/
theorem noneBegins_of_lt {body : Layout} {r : Reader} (hr : r.Sound)
    (hlt : r.remaining < body.certainBits) : NoneBegins ctx body r := by
  rintro t rfl found u hrun
  have := (needs_fields body t _ u hr hrun).2 rfl
  omega

/-- The end of the array is seen where fewer bits are ahead than are certain of a structure. -/
theorem noneBegins_of_look {body : Layout} (hpos : 1 ≤ body.certainBits) {r r' : Reader}
    (hr : r.Sound) (h : Reader.atEndFor (leastBits body.certainBits) ctx.options.bitOrder r =
      .ok true r') : NoneBegins ctx body r' := by
  have htakes := (Reader.atEndFor_eq_ok hr h).1
  have hremaining := htakes.remaining
  have hlt := Reader.lt_of_atEndFor hr h
  refine noneBegins_of_lt htakes.sound ?_
  unfold leastBits at hlt
  omega

/-- A repetition that lets the pass go on has come to its end by a look. -/
theorem exists_look_of_toEnd {element : PassM Reader (Step α)}
    (hforward : ∀ start, Keeps (Goes start) element) {least : Nat} {idle : Error} {xs : List α}
    (hs : s.stream.Sound)
    (h : toEnd least ctx.options.bitOrder idle element s = .ok (xs, .goOn) s') :
    ∃ r, r.Sound ∧ Reader.atEndFor least ctx.options.bitOrder r = .ok true s'.stream := by
  have key := toEnd_induction element
    (P := fun s _ flow s' => flow = .goOn → Goes s.stream s → ∃ r, r.Sound ∧
      Reader.atEndFor least ctx.options.bitOrder r = .ok true s'.stream)
    (fun s s' hend _ hs => by
      obtain ⟨r, hat, rfl⟩ := PassM.onStream_eq_ok.mp hend
      exact ⟨s.stream, hs.sound, hat⟩)
    (fun _ _ _ _ _ _ hflow => nomatch hflow)
    (fun s s₁ x s₂ xs flow s' hmore hx _ hrest hflow hs => by
      have hs₂ := hforward _ _ _ _ (forward_look _ _ _ hs hmore) hx
      exact hrest hflow (.refl hs₂.sound))
    h
  exact key rfl (.refl hs)

/-- A pass that comes to the end of the body of a structure has taken the bits that are certain of
it, and these are not fewer than a count in words makes them. Where a structure is certain to take a
bit and the look for the end of an unbounded array says that none can begin, none can be read to its
end; so the array that is read has every structure that the stream holds. -/
theorem no_structure_cut_off (ctx : PassContext) (head : Header) (body : Layout) :
    (∀ s found s', s.stream.Sound → fields ctx body s = .ok (found, .goOn) s' →
      s'.stream.Sound ∧ s'.stream.remaining + body.certainBits ≤ s.stream.remaining) ∧
    (body.countFrom 0 ≤ body.certainBits ∧
      leastBits (body.countFrom 0) = leastBits body.certainBits) ∧
    (1 ≤ body.countFrom 0 →
      (∀ r r', r.Sound → Reader.atEndFor (leastBits (body.countFrom 0)) ctx.options.bitOrder r =
        .ok true r' → NoneBegins ctx body r') ∧
      ∀ s v s', s.stream.Sound → group ctx head (some .unbounded) body.certainBits (fields ctx body) s =
        .ok (v, .goOn) s' → NoneBegins ctx body s'.stream) := by
  have hcount := body.countFrom_zero
  unfold Layout.inWord at hcount
  have hleast : leastBits (body.countFrom 0) = leastBits body.certainBits := by
    unfold leastBits
    omega
  refine ⟨fun s found s' hs hrun => ?_, ⟨by omega, hleast⟩, fun hpos => ⟨?_, ?_⟩⟩
  · obtain ⟨hs', htaken⟩ := needs_fields body s _ s' hs hrun
    exact ⟨hs', htaken rfl⟩
  · intro r r' hr hlook
    rw [hleast] at hlook
    exact noneBegins_of_look (by omega) hr hlook
  · intro s v s' hs hrun
    obtain ⟨count, s₁, hunbounded, hrun⟩ := bind_eq_ok.mp hrun
    cases hunbounded
    obtain ⟨⟨values, flow⟩, s₂, hvalues, hpure⟩ := bind_eq_ok.mp hrun
    cases hpure
    obtain ⟨r, hr, hlook⟩ :=
      exists_look_of_toEnd (fun start => (forward_fields body start).map _) hs hvalues
    exact noneBegins_of_look (by omega) hr hlook

/-- Three bits and a number of bytes that is only known during the pass. -/
def tripletBody : Layout :=
  .item ⟨2, some ⟨"s.a", "a", 2⟩, .big, ⟨16, 1, 17⟩⟩ (.value (.bit (.const 3)) none)
    (.item ⟨3, some ⟨"s.b", "b", 3⟩, .big, ⟨25, 1, 26⟩⟩
      (.value (.fixed .byte) (some (.computed (.field ⟨"n", "n", 0⟩)))) .done)

/-- Two structures without bytes leave two bits of one byte, too few for a third. -/
theorem no_structure_cut_off_triplets :
    ∃ v s', group ⟨{}, none⟩ ⟨1, some ⟨"s", "s", 1⟩, .big, ⟨8, 1, 9⟩⟩ (some .unbounded)
        tripletBody.certainBits (fields ⟨{}, none⟩ tripletBody)
        ⟨.ofSource (.ofBytes [0x3F]), ⟨[(0, 0)]⟩, []⟩ = .ok (v, .goOn) s' ∧
      s'.stream.remaining = 2 ∧ NoneBegins ⟨{}, none⟩ tripletBody s'.stream := by
  have hrun : group ⟨{}, none⟩ ⟨1, some ⟨"s", "s", 1⟩, .big, ⟨8, 1, 9⟩⟩ (some .unbounded)
      tripletBody.certainBits (fields ⟨{}, none⟩ tripletBody)
      ⟨.ofSource (.ofBytes [0x3F]), ⟨[(0, 0)]⟩, []⟩ =
      .ok (.list [
        .struct [.new (some ⟨"s.a", "a", 2⟩) (.bit 7), .new (some ⟨"s.b", "b", 3⟩) (.bytes [])],
        .struct [.new (some ⟨"s.a", "a", 2⟩) (.bit 7), .new (some ⟨"s.b", "b", 3⟩) (.bytes [])]],
        .goOn) ⟨⟨⟨[], none⟩, none, 0x3F, 6, 6, 1, 1⟩, ⟨[(2, 7), (0, 0)]⟩, []⟩ := by cbv
  obtain ⟨-, -, hends⟩ := no_structure_cut_off ⟨{}, none⟩
    ⟨1, some ⟨"s", "s", 1⟩, .big, ⟨8, 1, 9⟩⟩ tripletBody
  exact ⟨_, _, hrun, rfl, (hends (by decide)).2 _ _ _ (Reader.sound_ofSource _) hrun⟩

end Decode

end RecordLayout
