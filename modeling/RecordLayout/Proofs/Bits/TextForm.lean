import RecordLayout.Proofs.Bits.Spelling

/-!
# One form for each text

The length in front of a text could be spelled in several ways: a byte below 128 stands for itself,
and a byte above 128 for as many digits behind it, at most four of them. A writer takes the shortest
of these forms (`LengthForm.shortest_iff`), and a reader takes no other. So the bits that a text is
written as are the only ones it is read from, at every place in a byte and in both bit orders
(`TextForm.one_form_for_each_text`): what is neither the mark of no text nor begins a length, a
length in a longer form than it needs and a body that no text is encoded as are refused, each with
its own error.
-/

namespace RecordLayout

/-- What can stand for the length of a text. -/
inductive LengthForm : List UInt8 → Nat → Prop where
  | short (leading : UInt8) (h : leading.toNat < 0x80) : LengthForm [leading] leading.toNat
  | long (digits : List UInt8) (h : 1 ≤ digits.length) (h' : digits.length ≤ 4) :
      LengthForm (.ofNat (0x80 + digits.length) :: digits) (ByteOrder.big.number digits)

namespace LengthForm

variable {form form' : List UInt8} {length : Nat}

theorem lt (h : LengthForm form length) : length < 2 ^ 32 := by
  cases h with
  | short leading h => omega
  | long digits h h' =>
    calc ByteOrder.big.number digits < 256 ^ digits.length := ByteOrder.big.number_lt digits
      _ ≤ 256 ^ 4 := Nat.pow_le_pow_right (by decide) h'

theorem eq_cons (h : LengthForm form length) : ∃ leading digits, form = leading :: digits := by
  cases h with
  | short leading => exact ⟨leading, [], rfl⟩
  | long digits => exact ⟨_, digits, rfl⟩

/-- The form that a writer takes. -/
theorem of_textLength (h : length < 2 ^ 32) :
    LengthForm (Writer.textLength length) length := by
  by_cases hshort : length < 0x80
  · have hbyte : (UInt8.ofNat length).toNat = length := by
      rw [UInt8.toNat_ofNat', Nat.mod_eq_of_lt (by omega)]
    have hform := LengthForm.short (.ofNat length) (by rwa [hbyte])
    rwa [hbyte, ← Writer.textLength_of_lt hshort] at hform
  · obtain ⟨digits, hspell, hlen, hlen', -, hnumber⟩ :=
      Writer.digits_spec (show 0x80 ≤ length by omega) h
    have hform := LengthForm.long digits hlen hlen'
    rwa [hnumber, ← hspell] at hform

/-- No form is shorter than the one that a writer takes. -/
theorem length_textLength_le (h : LengthForm form length) :
    (Writer.textLength length).length ≤ form.length := by
  cases h with
  | short leading h => rw [Writer.textLength_of_lt h, List.length_singleton, List.length_singleton]
  | long digits h h' =>
    by_cases hshort : ByteOrder.big.number digits < 0x80
    · rw [Writer.textLength_of_lt hshort, List.length_singleton, List.length_cons]
      omega
    · have hdigits := (List.dropWhile_suffix (· == 0) (l := digits)).length_le
      rw [Writer.textLength_of_le (by omega), Writer.dropWhile_bytes_number h', List.length_cons,
        List.length_cons]
      omega

/-- Two forms of one length that are equally long are the same. -/
theorem eq_of_length_eq (h : LengthForm form length) (h' : LengthForm form' length)
    (hlen : form.length = form'.length) : form = form' := by
  cases h with
  | short leading hlt =>
    generalize hn : leading.toNat = n at h'
    cases h' with
    | short leading' hlt' => rw [UInt8.toNat_inj.mp hn]
    | long digits hone hfour =>
      rw [List.length_singleton, List.length_cons] at hlen
      omega
  | long digits hone hfour =>
    generalize hn : ByteOrder.big.number digits = n at h'
    cases h' with
    | short leading hlt =>
      rw [List.length_singleton, List.length_cons] at hlen
      omega
    | long digits' hone' hfour' =>
      rw [List.length_cons, List.length_cons, Nat.add_right_cancel_iff] at hlen
      have hdigits := ByteOrder.bytes_number .big digits
      rw [hn, hlen, ByteOrder.bytes_number] at hdigits
      rw [hdigits]

/-- The form that a writer takes is the one shortest form. -/
theorem shortest_iff (h : LengthForm form length) :
    (∀ form', LengthForm form' length → form.length ≤ form'.length) ↔
      form = Writer.textLength length := by
  constructor
  · intro hshortest
    have hwriter := of_textLength h.lt
    exact h.eq_of_length_eq hwriter
      (Nat.le_antisymm (hshortest _ hwriter) h.length_textLength_le)
  · rintro rfl form' h'
    exact h'.length_textLength_le

/-- A byte with which no length begins. -/
theorem leading_spec {leading : UInt8} (h : ∀ digits length, ¬ LengthForm (leading :: digits) length) :
    ¬ leading < 0x80 ∧ ¬ (0x81 ≤ leading ∧ leading ≤ 0x84) := by
  constructor
  · intro hlt
    exact h [] _ (.short leading (UInt8.lt_iff_toNat_lt.mp hlt))
  · rintro ⟨hlow, hhigh⟩
    have hlow := UInt8.le_iff_toNat_le.mp hlow
    have hhigh := UInt8.le_iff_toNat_le.mp hhigh
    simp only [UInt8.reduceToNat] at hlow hhigh
    have hform := LengthForm.long (List.replicate (leading.toNat - 0x80) 0)
      (by rw [List.length_replicate]; omega) (by rw [List.length_replicate]; omega)
    rw [List.length_replicate, show 0x80 + (leading.toNat - 0x80) = leading.toNat by omega,
      UInt8.ofNat_toNat] at hform
    exact h _ _ hform

end LengthForm

namespace Reader

variable {r : Reader} {order : BitOrder} {leading : UInt8} {digits : List UInt8} {length : Nat}
  {rest : List Bool}

/-- A first byte that begins no form is refused as such. -/
theorem readTextLength_of_unknown
    (h : ∀ digits length, ¬ LengthForm (leading :: digits) length) :
    readTextLength leading order r = .error (.textPrefix leading) r := by
  obtain ⟨hshort, hlong⟩ := LengthForm.leading_spec h
  rw [readTextLength, if_neg hshort, if_neg hlong]
  rfl

/-- A form with more digits than the length needs is read to its end and then refused. -/
theorem readTextLength_of_longer (hs : r.Sound) (hform : LengthForm (leading :: digits) length)
    (hlonger : leading :: digits ≠ Writer.textLength length)
    (h : r.ahead order = Bits.ofBytes digits ++ rest) :
    leading ≠ 0xFF ∧
      ∃ r', readTextLength leading order r = .error (.longTextLength length) r' := by
  cases hform with
  | short leading hlt =>
    rw [Writer.textLength_of_lt hlt, UInt8.ofNat_toNat] at hlonger
    exact absurd rfl hlonger
  | long digits hone hfour =>
    have hcondition : ByteOrder.big.number digits < 0x80 ∨ digits.head? = some 0 := by
      by_contra hnone
      rw [not_or] at hnone
      exact hlonger (Writer.textLength_of_digits hfour hnone.2 (by omega)).symm
    obtain ⟨hff, r', -, hread⟩ := readTextLength_of_digits hs hone hfour h
    exact ⟨hff, r', by rw [hread, if_pos hcondition]⟩

/-- A text whose length is refused. -/
theorem readText_of_length {r₁ r₂ : Reader} {e : Error} (hff : leading ≠ 0xFF)
    (hleading : readByte order r = .ok leading r₁)
    (hlength : readTextLength leading order r₁ = .error e r₂) :
    readText order r = .error e r₂ := by
  rw [readText, bind_of_ok hleading]
  simp only [hff, if_false]
  exact bind_of_error hlength

end Reader

namespace TextForm

open Reader Writer

/-- Every writer in use writes the text as these bits, wherever in a byte it stands. -/
def WrittenAs (order : BitOrder) (text : Option String) (bits : List Bool) : Prop :=
  ∀ w : Writer, w.Ready order →
    ∃ w', writeText text order w = .ok () w' ∧ Writes order bits w w'

/-- Every reader in use, wherever in a byte it stands, that has these bits ahead reads the text and
takes no bit but these. -/
def ReadFrom (order : BitOrder) (text : Option String) (bits : List Bool) : Prop :=
  ∀ (r : Reader) (rest : List Bool), r.Sound → r.ahead order = bits ++ rest →
    ∃ r', readText order r = .ok text r' ∧ Takes bits.length r r'

/-- Every reader in use that has these bytes ahead refuses them, whatever stands behind them. -/
def Refused (order : BitOrder) (bytes : List UInt8) (e : Error) : Prop :=
  ∀ (r : Reader) (rest : List Bool), r.Sound → r.ahead order = Bits.ofBytes bytes ++ rest →
    ∃ r', readText order r = .error e r'

variable {order : BitOrder} {text : Option String} {bits : List Bool} {form body : List UInt8}
  {length : Nat}

/-- A text is written as its bytes wherever it begins. -/
theorem writtenAs_iff :
    WrittenAs order text bits ↔ TextFits text ∧ bits = Bits.ofBytes (textBytes text) := by
  constructor
  · intro h
    have hready : (ofSink .empty).Ready order := ready_ofSink rfl rfl order
    obtain ⟨w', hwrite, hwrites⟩ := h _ hready
    have hfits := fits_of_writeText hwrite
    obtain ⟨w'', hwrite', hwrites'⟩ := writeText_of_ready hready hfits
    rw [hwrite] at hwrite'
    cases hwrite'
    exact ⟨hfits, List.append_cancel_left (hwrites.written.symm.trans hwrites'.written)⟩
  · rintro ⟨hfits, rfl⟩ w hw
    exact writeText_of_ready hw hfits

theorem WrittenAs.readFrom (h : WrittenAs order text bits) : ReadFrom order text bits := by
  obtain ⟨hfits, rfl⟩ := writtenAs_iff.mp h
  intro r rest hs hahead
  rw [Bits.length_ofBytes]
  exact readText_of_ahead hs hfits hahead

/-- A text that was read was written there in the form that writing gives it. -/
theorem writtenAs_of_readText {r r' : Reader} (hs : r.Sound)
    (h : readText order r = .ok text r') :
    ∃ bits, WrittenAs order text bits ∧ Takes bits.length r r' ∧
      r.ahead order = bits ++ r'.ahead order := by
  obtain ⟨htakes, hfits, hahead⟩ := readText_eq_ok hs h
  exact ⟨_, writtenAs_iff.mpr ⟨hfits, rfl⟩, by rwa [Bits.length_ofBytes], hahead⟩

theorem refused_unknown {leading : UInt8} (hff : leading ≠ 0xFF)
    (h : ∀ digits length, ¬ LengthForm (leading :: digits) length) :
    Refused order [leading] (.textPrefix leading) := by
  intro r rest hs hahead
  rw [Bits.ofBytes_cons, Bits.ofBytes_nil, List.append_nil] at hahead
  obtain ⟨r₁, hread, -⟩ := readByte_of_ahead hs hahead
  exact ⟨r₁, readText_of_length hff hread (readTextLength_of_unknown h)⟩

theorem refused_longer (hform : LengthForm form length)
    (hlonger : form ≠ textLength length) : Refused order form (.longTextLength length) := by
  intro r rest hs hahead
  obtain ⟨leading, digits, rfl⟩ := hform.eq_cons
  rw [Bits.ofBytes_cons, List.append_assoc] at hahead
  obtain ⟨r₁, hread, htakes, hahead'⟩ := readByte_past hs hahead
  obtain ⟨hff, r₂, hlength⟩ := readTextLength_of_longer htakes.sound hform hlonger hahead'
  exact ⟨r₂, readText_of_length hff hread hlength⟩

/-- Bytes of the right number that are no text are refused for what is wrong with them. -/
theorem refused_body {fault : Text.Utf8.Fault} (hlt : body.length < 2 ^ 32)
    (h : Text.Utf8.decode body = .error fault) :
    Refused order (textLength body.length ++ body) (.notUtf8 fault) := by
  intro r rest hs hahead
  obtain ⟨leading, digits, hspell⟩ := textLength_eq_cons body.length
  rw [hspell, List.cons_append, Bits.ofBytes_cons, Bits.ofBytes_append, List.append_assoc,
    List.append_assoc] at hahead
  obtain ⟨r₁, hread, htakes, hahead₁⟩ := readByte_past hs hahead
  obtain ⟨hff, r₂, hlength, htakes'⟩ := readTextLength_of_ahead htakes.sound hlt hspell hahead₁
  have hahead₂ := Consumes.rest_eq ((Bits.length_ofBytes digits).symm ▸ htakes'.toConsumes) hahead₁
  obtain ⟨r₃, hbody, -⟩ := readBytes_of_ahead htakes'.sound hahead₂
  refine ⟨r₃, ?_⟩
  rw [readText, bind_of_ok hread]
  simp only [hff, if_false]
  rw [bind_of_ok hlength, bind_of_ok hbody, h]
  rfl

/-- Texts are read from exactly the bits that they are written as. -/
theorem one_form_for_each_text (order : BitOrder) :
    (∀ text, TextFits text → ∃! bits, WrittenAs order text bits) ∧
    (∀ text bits, WrittenAs order text bits → ReadFrom order text bits) ∧
    (∀ (r r' : Reader) text, r.Sound → readText order r = .ok text r' →
      ∃ bits, WrittenAs order text bits ∧ Takes bits.length r r' ∧
        r.ahead order = bits ++ r'.ahead order) ∧
    (∀ leading, leading ≠ 0xFF → (∀ digits length, ¬ LengthForm (leading :: digits) length) →
      Refused order [leading] (.textPrefix leading)) ∧
    (∀ form form' length, LengthForm form length → LengthForm form' length →
      form'.length < form.length → Refused order form (.longTextLength length)) ∧
    (∀ form body, LengthForm form body.length →
      (∀ form', LengthForm form' body.length → form.length ≤ form'.length) →
      (∀ text, Text.Utf8.encode text ≠ body) →
      ∃ fault, Refused order (form ++ body) (.notUtf8 fault)) := by
  refine ⟨fun text hfits => ?_, fun _ _ => WrittenAs.readFrom, fun _ _ _ => writtenAs_of_readText,
    fun _ => refused_unknown, fun form form' length hform hform' hlonger => ?_,
    fun form body hform hshortest hbody => ?_⟩
  · exact ⟨_, writtenAs_iff.mpr ⟨hfits, rfl⟩, fun _ h => (writtenAs_iff.mp h).2⟩
  · refine refused_longer hform fun hwriter => ?_
    have hle := hform.shortest_iff.mpr hwriter form' hform'
    omega
  · rw [hform.shortest_iff.mp hshortest]
    cases hdecode : Text.Utf8.decode body with
    | ok text => exact absurd (Text.Utf8.encode_of_decode hdecode) (hbody text)
    | error fault => exact ⟨fault, refused_body hform.lt hdecode⟩

end TextForm

end RecordLayout
