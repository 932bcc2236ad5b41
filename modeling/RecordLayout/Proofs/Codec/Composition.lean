import RecordLayout.Proofs.Behind.Compilation
import RecordLayout.Proofs.Behind.Passes
import RecordLayout.Proofs.Codec.Passes
import RecordLayout.Proofs.Pass.ReadSound
import RecordLayout.Proofs.Pass.Shortened

/-!
# Records behind one another

Two scripts that have nothing to do with each other, with a reset between them, are a format for two
records in a row. A strict read takes the record of the first script and then, from the bytes that
are left, the record of the second.
-/

namespace RecordLayout

/-! ## The values that a record leaves -/

section

variable {ctx : PassContext} {head : Header} {p p' : Place} {i : Nat}

/-- A node of one declaration leaves the numbers of the others. -/
theorem Place.get?_note (p : Place) {info : Option FieldInfo} (v : Value)
    (hinfo : ∀ name, info = some name → name.index ≠ i) :
    (p.note info v).numbers.get? i = p.numbers.get? i := by
  unfold note
  split
  · rename_i name n _
    exact (Numbers.get?_put _ _ _ _).trans (if_neg (hinfo name rfl))
  · rfl

/-- A declaration gives a value to its own name only. -/
theorem Decl.Spells.get? {decl : Decl} {node : Option Field} {pieces : List Piece}
    (hinfo : ∀ name, head.info = some name → name.index ≠ i)
    (h : decl.Spells ctx head p node pieces p') : p'.numbers.get? i = p.numbers.get? i := by
  cases h with
  | single | computed => exact Place.get?_note _ _ hinfo
  | counted | unbounded | align | skip | reset => rfl

variable {body : Place → List Field → List Piece → Option Place → Prop}
  (hbody : ∀ p fields pieces p', body p fields pieces (some p') →
    p'.numbers.get? i = p.numbers.get? i)
include hbody

/-- The elements of an array give numbers to their own declarations only. -/
theorem Elements.Spells.get? {values : List Value} {pieces : List Piece} {begun : Nat}
    (h : Elements.Spells body p values pieces begun (some p')) :
    p'.numbers.get? i = p.numbers.get? i := by
  generalize hplace : some p' = place at h
  induction h with
  | nil =>
    cases hplace
    rfl
  | next one rest ih => exact (ih hplace).trans (hbody _ _ _ _ one)
  | cut one any => cases hplace
  | dropped one => cases hplace

theorem Group.Spells.get? {certain : Nat} {length : Option Length} {v : Value}
    {pieces : List Piece} (h : Group.Spells ctx certain body length p v pieces (some p')) :
    p'.numbers.get? i = p.numbers.get? i := by
  cases h with
  | struct one => exact hbody _ _ _ _ one
  | counted count all => exact all.get? hbody
  | unbounded count all => exact all.get? hbody

end

/-- The declarations of a layout give no values to indexes behind their own. -/
theorem Layout.Spells.get?_behind {ctx : PassContext} {l : Layout} {customs : List CustomType}
    {n i : Nat} {seen : List Declared} (hscoped : l.Scoped customs n seen) (hi : n + l.size ≤ i)
    {p p' : Place} {fields : List Field} {pieces : List Piece}
    (h : l.Spells ctx p fields pieces (some p')) : p'.numbers.get? i = p.numbers.get? i := by
  have hplaced : ∀ {head : Header} {n : Nat} {seen : List Declared}, head.Placed n seen → n < i →
      ∀ name, head.info = some name → name.index ≠ i := by
    intro head n seen hhead hn name hname
    rw [hhead.info name hname]
    exact Nat.ne_of_lt hn
  induction l generalizing n seen p p' fields pieces with
  | done =>
    cases h.2.2
    rfl
  | item head decl rest ih =>
    obtain ⟨hhead, -, -, hrest⟩ := hscoped
    rw [Layout.size] at hi
    rcases h with ⟨-, -, -, ⟨⟩⟩ | ⟨node, first, p₁, more, later, hdecl, hlater, -, -⟩
    exact (ih hrest (by omega) hlater).trans (hdecl.get? (hplaced hhead (by omega)))
  | group head length body closing rest ihbody ihrest =>
    obtain ⟨hhead, -, hbody, hrest⟩ := hscoped
    rw [Layout.size] at hi
    rcases h with ⟨-, -, -, ⟨⟩⟩ | ⟨v, first, hfound⟩
    rcases hfound with ⟨-, -, -, ⟨⟩⟩ | ⟨p₁, more, later, hgroup, hlater, -, -⟩
    refine (ihrest hrest (by omega) hlater).trans ?_
    exact hgroup.get? fun _ _ _ _ hone => ihbody hbody (by omega) hone

/-! ## Passes over layouts behind one another -/

namespace Decode

variable {ctx : PassContext}

/-- The pass over one layout behind another. -/
theorem fields_append (ctx : PassContext) (k l : Layout) :
    fields ctx (k ++ l) = (do
      let (first, flow) ← fields ctx k
      match flow with
      | .stop => pure (first, .stop)
      | .goOn => do
        let (more, flow) ← fields ctx l
        pure (first ++ more, flow)) := by
  induction k with
  | done => simp [fields]
  | item head decl rest ih =>
    simp only [Layout.item_append, fields, ih, bind_assoc]
    refine bind_congr fun ends => ?_
    cases ends with
    | true => simp
    | false =>
      simp only [Bool.false_eq_true, if_false, bind_assoc, pure_bind]
      refine bind_congr fun node => bind_congr fun found => ?_
      rcases found with ⟨first, flow⟩
      cases flow <;> simp
  | group head length body closing rest _ ih =>
    simp only [Layout.group_append, fields, ih, bind_assoc]
    refine bind_congr fun ends => ?_
    cases ends with
    | true => simp
    | false =>
      simp only [Bool.false_eq_true, if_false, bind_assoc]
      refine bind_congr fun found => ?_
      rcases found with ⟨v, flow⟩
      cases flow with
      | stop => simp
      | goOn =>
        simp only [bind_assoc, pure_bind]
        refine bind_congr fun found => ?_
        rcases found with ⟨first, flow⟩
        cases flow <;> simp

/-- What a strict pass over a layout leaves behind its record: the bytes that it has not fetched,
and no values for indexes that the layout has not. -/
structure Leaves (data : List UInt8) (size : Nat) (flow : Flow) (s : PassState Reader) : Prop where
  goesOn : flow = .goOn
  bytes : s.stream.unfetched = data.drop s.stream.fetched
  ends : s.stream.source.failure = none
  numbers : ∀ i, size ≤ i → s.numbers.get? i = none

/-- What the first layout reads leaves the reader where the second one begins. -/
theorem leaves_of_fields {l : Layout} {customs : List CustomType} (hscoped : l.Scoped customs 0 [])
    (hcustom : l.customUses = []) (hbounded : l.endless = false)
    (hstrict : ctx.options.lenient = false) {data : List UInt8} {found : List Field} {flow : Flow}
    {s : PassState Reader} (h : fields ctx l (Codec.readStart data) = .ok (found, flow) s) :
    Leaves data l.size flow s := by
  obtain ⟨pieces, place, hspells, -, hafter⟩ :=
    fields_sound hcustom (Codec.at_readStart data) h
  cases place with
  | none =>
    have hlenient := hspells.holdsValue_of_none.1
    rw [hstrict] at hlenient
    cases hlenient
  | some p =>
    have hshortens : Shortens ctx 0 Fields.Truncates (fields ctx l) :=
      shortens_fields hcustom hbounded
    obtain ⟨hpast, -⟩ := hshortens _ _ _ h
    obtain ⟨bs, hbytes, hfetched⟩ := hpast.bytes
    replace hbytes : data = bs ++ s.stream.unfetched :=
      (Source.bytes_ofBytes data).symm.trans hbytes
    replace hfetched : s.stream.fetched = bs.length := hfetched.trans (Nat.zero_add _)
    refine ⟨hafter.1, ?_, hafter.2.ends, fun i hi => ?_⟩
    · rw [hfetched, hbytes, List.drop_left]
    · rw [hafter.2.numbers, hspells.get?_behind hscoped (by omega)]
      rfl

/-- Behind a reset the pass goes on as a pass over the bytes that are left, further back. -/
theorem Leaves.behind_reset (hstrict : ctx.options.lenient = false) {data : List UInt8} {n : Nat}
    {flow : Flow} {s : PassState Reader} (h : Leaves data n flow s) (head : Header)
    (rest : Layout) :
    ∃ s', fields ctx (.item head .reset rest) s = fields ctx rest s' ∧
      Behind (n + 1) s.stream.fetched (Codec.readStart (data.drop s.stream.fetched)) s' := by
  obtain ⟨r, hreset, hr⟩ := Reader.restarted_reset h.bytes h.ends
  refine ⟨{ s with stream := r }, ?_, hr, fun i => ?_⟩
  · have hends : endsBefore ctx (Decl.kind .reset).holdsValue = pure false := by
      rw [endsBefore, hstrict]
      rfl
    have hitem : item ctx head .reset s = .ok none { s with stream := r } :=
      (bind_of_ok (PassM.onStream_of_ok hreset)).trans rfl
    simp only [fields, hends, pure_bind]
    refine (bind_of_ok hitem).trans ?_
    simp
  · rw [h.numbers _ (by omega)]
    rfl

/-- The pass over two layouts with a reset between them: it is the pass over the first one, and then
one over the second in what is left. -/
theorem fields_around_reset {values : Option (String → Option Int64)}
    (hctx : ctx.resolver = values.map Resolver.ofMap) (hstrict : ctx.options.lenient = false)
    {k l : Layout} {customs : List CustomType} (hscoped : k.Scoped customs 0 [])
    (hbounded : k.endless = false) (hkcustom : k.customUses = []) (hlcustom : l.customUses = [])
    (head : Header) (data : List UInt8) (found : List Field) (flow : Flow) (consumed : Nat) :
    (∃ s, fields ctx (k ++ .item head .reset (l.shift (k.size + 1))) (Codec.readStart data) =
        .ok (found, flow) s ∧ s.stream.fetched = consumed) ↔
      ∃ first flow₁ s second s', fields ctx k (Codec.readStart data) = .ok (first, flow₁) s ∧
        fields ctx l (Codec.readStart (data.drop s.stream.fetched)) = .ok (second, flow) s' ∧
        found = first ++ second.map (Field.shift (k.size + 1)) ∧
        s.stream.fetched + s'.stream.fetched = consumed := by
  rw [fields_append]
  constructor
  · rintro ⟨t, hrun, rfl⟩
    obtain ⟨⟨first, flow₁⟩, s, hfirst, hrun⟩ := bind_eq_ok.mp hrun
    have hleaves := leaves_of_fields hscoped hkcustom hbounded hstrict hfirst
    obtain rfl : flow₁ = .goOn := hleaves.goesOn
    obtain ⟨⟨back, flow₂⟩, t', hback, hpure⟩ := bind_eq_ok.mp hrun
    cases hpure
    obtain ⟨s₁, hreset, hbehind⟩ := hleaves.behind_reset hstrict head (l.shift (k.size + 1))
    rw [hreset] at hback
    obtain ⟨⟨second, flow'⟩, s', hsecond, heq, hend⟩ :=
      (echoes_fields hctx hstrict hlcustom).exists_of_ok hbehind hback
    cases heq
    exact ⟨first, .goOn, s, second, s', hfirst, hsecond, rfl, hend.stream.fetched.symm⟩
  · rintro ⟨first, flow₁, s, second, s', hfirst, hsecond, rfl, rfl⟩
    have hleaves := leaves_of_fields hscoped hkcustom hbounded hstrict hfirst
    obtain rfl : flow₁ = .goOn := hleaves.goesOn
    obtain ⟨s₁, hreset, hbehind⟩ := hleaves.behind_reset hstrict head (l.shift (k.size + 1))
    have hback := echoes_fields hctx hstrict hlcustom _ _ hbehind
    rw [hsecond] at hback
    obtain ⟨t, hback, hend⟩ := hback
    refine ⟨t, (bind_of_ok hfirst).trans ((bind_of_ok (hreset.trans hback)).trans rfl), ?_⟩
    exact hend.stream.fetched

end Decode

/-! ## Records in a row -/

namespace Decoded

/-- The fields of a record. -/
def fields (d : Decoded) : List Field := d.tree.value.asStruct.getD []

/-- One record behind another: the fields of both, those of the second further back, and the bytes
of both. -/
def andThen (k : Nat) (first second : Decoded) : Decoded where
  tree := .unnamed (.struct (first.fields ++ second.fields.map (Field.shift k)))
  consumed := first.consumed + second.consumed

end Decoded

namespace Codec

/-- A reset makes scripts compose. Two scripts that have nothing to do with each other, with a reset
between them, compile, and a strict read with both succeeds exactly if a read with the first one
does and then, on the bytes that are left, a read with the second one: it gives the fields of both
records and takes the bytes of both. The resolver is a map from names, and there are no custom
types. -/
theorem decode_around_reset {compiling : CompileOptions} {ts us : List Script.Token} {k l : Layout}
    (hk : Layout.ofTokens compiling ts = .ok k) (hl : Layout.ofTokens compiling us = .ok l)
    (hbounded : k.endless = false) (hapart : Script.Apart ts us) (hkcustom : k.customUses = [])
    (hlcustom : l.customUses = []) {order : Option ByteOrder} {t : Script.Token}
    (ht : t.Resets order) {reading : CodecOptions} (hstrict : reading.lenient = false)
    (values : Option (String → Option Int64)) :
    ∃ whole, Layout.ofTokens compiling (ts ++ t :: us) = .ok whole ∧ ∀ data d,
      Codec.decode ⟨whole, reading⟩ (values.map Resolver.ofMap) data = .ok d ↔
        ∃ first second, Codec.decode ⟨k, reading⟩ (values.map Resolver.ofMap) data = .ok first ∧
          Codec.decode ⟨l, reading⟩ (values.map Resolver.ofMap) (data.drop first.consumed) =
            .ok second ∧
          d = first.andThen (k.size + 1) second := by
  refine ⟨_, Layout.ofTokens_around_reset hk hl hbounded hapart ht, fun data d => ?_⟩
  have hscoped := Layout.ofTokens_scoped hk
  have hctx : (PassContext.mk reading (values.map Resolver.ofMap)).resolver =
      values.map Resolver.ofMap := rfl
  have hpass := Decode.fields_around_reset hctx hstrict hscoped hbounded hkcustom hlcustom
  simp only [decode_eq_ok_iff, Codec.context]
  constructor
  · rintro ⟨found, flow, s, hrun, rfl⟩
    obtain ⟨first, flow₁, s₁, second, s₂, hfirst, hsecond, rfl, hconsumed⟩ :=
      (hpass _ data found flow _).mp ⟨s, hrun, rfl⟩
    refine ⟨_, _, ⟨first, flow₁, s₁, hfirst, rfl⟩, ⟨second, flow, s₂, hsecond, rfl⟩, ?_⟩
    rw [← hconsumed]
    rfl
  · rintro ⟨_, _, ⟨first, flow₁, s₁, hfirst, rfl⟩, ⟨second, flow, s₂, hsecond, rfl⟩, rfl⟩
    obtain ⟨s, hrun, hconsumed⟩ := (hpass _ data _ flow _).mpr
      ⟨first, flow₁, s₁, second, s₂, hfirst, hsecond, rfl, rfl⟩
    refine ⟨_, flow, s, hrun, ?_⟩
    rw [hconsumed]
    rfl

/-- A byte, and as many bits as it says. -/
def bitsTokens : List Script.Token := [
  ⟨.field ⟨none, "ubyte", none, none, some "n"⟩, "ubyte n;", ⟨0, 1, 1⟩⟩,
  ⟨.field ⟨none, "bit", some (.expression "n"), none, some "w"⟩, "bit:(n) w;", ⟨9, 1, 10⟩⟩]

def bitsLayout : Layout :=
  .item ⟨0, some ⟨"n", "n", 0⟩, .big, ⟨0, 1, 1⟩⟩ (.value (.fixed .ubyte) none)
    (.item ⟨1, some ⟨"w", "w", 1⟩, .big, ⟨9, 1, 10⟩⟩
      (.value (.bit (.computed (.field ⟨"n", "n", 0⟩))) none) .done)

def resetToken : Script.Token :=
  ⟨.field ⟨none, "reset$$", none, none, none⟩, "reset$$;", ⟨20, 1, 21⟩⟩

/-- A byte, and as many more as were taken, as it says and as a name from outside says. -/
def bytesTokens : List Script.Token := [
  ⟨.field ⟨none, "ubyte", none, none, some "q"⟩, "ubyte q;", ⟨29, 1, 30⟩⟩,
  ⟨.field ⟨none, "byte", none, some (.expression "$$ + q + m"), some "c"⟩, "byte [$$ + q + m] c;",
    ⟨38, 1, 39⟩⟩]

def bytesLayout : Layout :=
  .item ⟨0, some ⟨"q", "q", 0⟩, .big, ⟨29, 1, 30⟩⟩ (.value (.fixed .ubyte) none)
    (.item ⟨1, some ⟨"c", "c", 1⟩, .big, ⟨38, 1, 39⟩⟩ (.value (.fixed .byte)
      (some (.computed (.binary .add (.binary .add .counter (.field ⟨"q", "q", 0⟩))
        (.external "m"))))) .done)

theorem apart_bits_bytes : Script.Apart bitsTokens bytesTokens := by
  have hfront : Script.references bitsTokens = [⟨1, [], ⟨"n", false⟩⟩] := by cbv
  have hback : Script.references bytesTokens = [⟨1, [], ⟨"q", false⟩⟩, ⟨1, [], ⟨"m", false⟩⟩] := by
    cbv
  refine ⟨by decide, ?_, ?_⟩
  · rw [Script.Ignores, hfront]
    decide
  · rw [Script.Ignores, hback]
    decide

/-- Of the byte with the bits nothing is left behind the reset, and one byte was taken there when
the length of the array is computed. -/
theorem decode_bits_reset_bytes :
    ∃ whole, Layout.ofTokens {} (bitsTokens ++ resetToken :: bytesTokens) = .ok whole ∧
      decode ⟨whole, {}⟩ (some (.ofMap fun name => if name = "m" then some 1 else none))
          [3, 5, 1, 9, 8, 7, 6] =
        .ok ⟨.unnamed (.struct [.new (some ⟨"n", "n", 0⟩) (.ubyte 3),
          .new (some ⟨"w", "w", 1⟩) (.bit 5), .new (some ⟨"q", "q", 3⟩) (.ubyte 1),
          .new (some ⟨"c", "c", 4⟩) (.bytes [9, 8, 7])]), 6⟩ := by
  have hk : Layout.ofTokens {} bitsTokens = .ok bitsLayout := by cbv
  have hl : Layout.ofTokens {} bytesTokens = .ok bytesLayout := by cbv
  have ht : Script.Token.Resets none resetToken := rfl
  have hstrict : ({} : CodecOptions).lenient = false := rfl
  obtain ⟨whole, hwhole, hdecode⟩ := decode_around_reset hk hl rfl apart_bits_bytes rfl rfl ht
    hstrict (some fun name => if name = "m" then some 1 else none)
  have hfirst : decode ⟨bitsLayout, {}⟩
      (some (.ofMap fun name => if name = "m" then some 1 else none)) [3, 5, 1, 9, 8, 7, 6] =
        .ok ⟨.unnamed (.struct [.new (some ⟨"n", "n", 0⟩) (.ubyte 3),
          .new (some ⟨"w", "w", 1⟩) (.bit 5)]), 2⟩ := by cbv
  have hsecond : decode ⟨bytesLayout, {}⟩
      (some (.ofMap fun name => if name = "m" then some 1 else none)) [1, 9, 8, 7, 6] =
        .ok ⟨.unnamed (.struct [.new (some ⟨"q", "q", 0⟩) (.ubyte 1),
          .new (some ⟨"c", "c", 1⟩) (.bytes [9, 8, 7])]), 4⟩ := by cbv
  exact ⟨whole, hwhole, (hdecode _ _).mpr ⟨_, _, hfirst, hsecond, rfl⟩⟩

end Codec

end RecordLayout
