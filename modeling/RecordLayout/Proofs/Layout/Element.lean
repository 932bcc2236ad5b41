import RecordLayout.Layout.Element
import RecordLayout.Proofs.Bits.Spelling

/-!
# Values in the form of their type

A value fits a type if a read could give it. Such a value has one spelling. Normalizing a supplied
value gives one that fits, and leaves a value that fits alone; only a 32-bit float takes the way
through 64 bits, where a signal of a NaN is lost.
-/

namespace RecordLayout

namespace Value

mutual

/-- The 32-bit floats in a value, at any depth. -/
def floats : Value → List Binary32
  | float x => [x]
  | list items => floatsOfItems items
  | struct fields => floatsOfFields fields
  | _ => []

/-- The 32-bit floats in the elements of a list. -/
def floatsOfItems : List Value → List Binary32
  | [] => []
  | v :: rest => v.floats ++ floatsOfItems rest

/-- The 32-bit floats in the fields of a structure. -/
def floatsOfFields : List Field → List Binary32
  | [] => []
  | ⟨_, v, _⟩ :: rest => v.floats ++ floatsOfFields rest

end

/-- The way of every 32-bit float through 64 bits gives it back. -/
def Survives (v : Value) : Prop := ∀ x ∈ v.floats, x.widen.narrow = x

theorem floatsOfFields_append (fs gs : List Field) :
    floatsOfFields (fs ++ gs) = floatsOfFields fs ++ floatsOfFields gs := by
  induction fs with
  | nil => rfl
  | cons f fs ih =>
    rcases f with ⟨info, v, payload⟩
    rw [List.cons_append, floatsOfFields, floatsOfFields, ih, List.append_assoc]

theorem floats_subset_of_mem {x : Value} {items : List Value} (h : x ∈ items) :
    x.floats ⊆ floatsOfItems items := by
  induction items with
  | nil => cases h
  | cons v rest ih =>
    rw [floatsOfItems]
    cases h with
    | head => exact List.subset_append_left _ _
    | tail _ h => exact List.subset_append_of_subset_right _ (ih h)

end Value

namespace FixedType

variable {type : FixedType} {n : Nat} {u v : Value}

/-- A value of a fixed type stands for one number. -/
theorem number_of_ofNumber (hn : n < 256 ^ type.size) (h : type.ofNumber n = .ok v) :
    v.number = n := by
  cases type with
  | bool =>
    simp only [ofNumber] at h
    split at h
    · rename_i hzero
      cases h
      rw [hzero]
      rfl
    split at h
    · rename_i hone
      cases h
      rw [hone]
      rfl
    · cases h
  | _ =>
    cases h
    simp only [size, Nat.reducePow] at hn
    simp [Value.number, Nat.mod_eq_of_lt hn]

/-- The number of a normalised value gives it back, and has no more bytes than its type. -/
theorem ofNumber_of_normalize (h : type.normalize u = some v) :
    type.ofNumber v.number = .ok v ∧ v.number < 256 ^ type.size := by
  cases type <;> obtain ⟨x, -, rfl⟩ := Option.map_eq_some_iff.mp h
  case bool => cases x <;> simp [ofNumber, Value.number, size]
  case byte => exact ⟨by simp [ofNumber, Value.number], x.toInt8.toUInt8.toNat_lt⟩
  case ubyte =>
    generalize x.toUInt64.toUInt8 = y
    exact ⟨by simp [ofNumber, Value.number], y.toNat_lt⟩
  case short => exact ⟨by simp [ofNumber, Value.number], x.toInt16.toUInt16.toNat_lt⟩
  case ushort =>
    generalize x.toUInt64.toUInt16 = y
    exact ⟨by simp [ofNumber, Value.number], y.toNat_lt⟩
  case int => exact ⟨by simp [ofNumber, Value.number], x.toInt32.toUInt32.toNat_lt⟩
  case uint =>
    generalize x.toUInt64.toUInt32 = y
    exact ⟨by simp [ofNumber, Value.number], y.toNat_lt⟩
  case long => exact ⟨by simp [ofNumber, Value.number], x.toUInt64.toNat_lt⟩
  case float => exact ⟨by simp [ofNumber, Value.number], x.narrow.bits.toNat_lt⟩
  case double => exact ⟨by simp [ofNumber, Value.number], x.bits.toNat_lt⟩

/-- A value that was read and survives is its own normal form. -/
theorem normalize_of_ofNumber (h : type.ofNumber n = .ok v) (hv : v.Survives) :
    type.normalize v = some v := by
  cases type
  case bool =>
    simp only [ofNumber] at h
    split at h
    · cases h
      rfl
    split at h
    · cases h
      rfl
    · cases h
  all_goals cases h
  case ubyte =>
    generalize UInt8.ofNat n = x
    simp [normalize, Value.asInt]
  case ushort =>
    generalize UInt16.ofNat n = x
    simp [normalize, Value.asInt]
  case uint =>
    generalize UInt32.ofNat n = x
    simp [normalize, Value.asInt]
  case float => exact congrArg (fun x => some (Value.float x)) (hv _ (List.mem_singleton.mpr rfl))
  all_goals simp [normalize, Value.asInt, Value.asDouble]

end FixedType

namespace ElementType

/-- The values that a read of the type can give, for a known bit width. -/
def Fits (width : Nat) (v : Value) : ElementType → Prop
  | fixed type => type.ofNumber v.number = .ok v ∧ v.number < 256 ^ type.size
  | bit _ => width ≤ 8 ∧ ∃ x : UInt8, v = .bit x ∧ x.toNat < 2 ^ width
  | text => ∃ t, v = .text t ∧ Writer.TextFits t
  | custom _ _ => False

/-- The bits of a value that fits. -/
def spell (order : ByteOrder) (width : Nat) (v : Value) : ElementType → List Bool
  | fixed type => Bits.ofBytes (order.bytes v.number type.size)
  | bit _ => Bits.ofNat v.number width
  | text => Bits.ofBytes (Writer.textBytes v.asText)
  | custom _ _ => []

variable {type : ElementType} {width : Nat} {u v : Value}

/-- The bits of a value are no fewer than its type takes at least. -/
theorem leastBits_le_spell (order : ByteOrder) (h : type.Fits width v) :
    type.leastBits width ≤ (type.spell order width v).length := by
  cases type with
  | fixed type => simp [leastBits, spell]
  | bit w => simp [leastBits, spell]
  | text =>
    rw [leastBits, spell, Bits.length_ofBytes]
    obtain ⟨t, rfl, -⟩ := h
    cases t with
    | none => simp [Value.asText, Writer.textBytes]
    | some t =>
      obtain ⟨b, digits, hlength⟩ := Writer.textLength_eq_cons (Text.Utf8.encode t).length
      rw [Value.asText, Writer.textBytes, hlength, List.cons_append, List.length_cons]
      omega
  | custom use extra => exact h.elim

/-- A value that fits is in the form of its type already. -/
theorem normalize_of_fits (h : type.Fits width v) (hv : v.Survives) :
    type.normalize width v = some v := by
  cases type with
  | fixed type => exact FixedType.normalize_of_ofNumber h.1 hv
  | bit w =>
    obtain ⟨-, x, rfl, hx⟩ := h
    simp [normalize, Value.asInt, Nat.mod_eq_of_lt hx]
  | text =>
    obtain ⟨t, rfl, -⟩ := h
    rfl
  | custom use extra => exact h.elim

/-- Normalizing gives a value that fits, if a text is not too long. -/
theorem fits_of_normalize (hwidth : width ≤ 8) (h : type.normalize width u = some v)
    (htext : type = .text → Writer.TextFits v.asText) : type.Fits width v := by
  cases type with
  | fixed type => exact FixedType.ofNumber_of_normalize h
  | bit w =>
    obtain ⟨x, -, rfl⟩ := Option.map_eq_some_iff.mp h
    have hlt : x.toUInt64.toNat % 2 ^ width < 2 ^ width := Nat.mod_lt _ (Nat.two_pow_pos width)
    have hpow : 2 ^ width ≤ 2 ^ 8 := Nat.pow_le_pow_right (by decide) hwidth
    refine ⟨hwidth, _, rfl, ?_⟩
    rw [UInt8.toNat_ofNat', Nat.mod_eq_of_lt (Nat.lt_of_lt_of_le hlt hpow)]
    exact hlt
  | text =>
    cases u <;> simp only [normalize, Option.some.injEq, reduceCtorEq] at h
    cases h
    exact ⟨_, rfl, htext rfl⟩
  | custom use extra => cases h

end ElementType

end RecordLayout
