import Mathlib
import RecordLayout.Number.Binary

/-!
# Widening of floats

Every number of the 32-bit format is one of the 64-bit format. It gets as many trailing zeros as the
significand has room for, so that narrowing it again takes off just these and nothing is rounded.
-/

namespace RecordLayout

namespace FloatFormat

variable {f : FloatFormat} {negative : Bool} {m k : Nat} {e q : Int}

theorem fraction_double : double.fraction = 52 := rfl

theorem top_double : double.top = 2047 := rfl

theorem fraction_single : single.fraction = 23 := rfl

theorem top_single : single.top = 255 := rfl

/-! ## Fields -/

theorem signBit_eq (f : FloatFormat) : f.signBit = (f.top + 1) * 2 ^ f.fraction := by
  have htop : f.top + 1 = 2 ^ f.exponent := Nat.sub_add_cancel (Nat.two_pow_pos f.exponent)
  rw [htop, signBit, Nat.pow_add, Nat.mul_comm]

/-- The fields of a number do not reach its sign bit. -/
theorem fields_lt {field fraction : Nat} (hfield : field ≤ f.top)
    (hfraction : fraction < 2 ^ f.fraction) : field * 2 ^ f.fraction + fraction < f.signBit := by
  have hle := Nat.mul_le_mul_right (2 ^ f.fraction) (Nat.succ_le_succ hfield)
  rw [Nat.succ_mul] at hle
  rw [signBit_eq]
  exact Nat.lt_of_lt_of_le (Nat.add_lt_add_left hfraction _) hle

/-- The parts of a number whose fields are given. -/
theorem parts_of_fields {field fraction : Nat} (hfield : field ≤ f.top)
    (hfraction : fraction < 2 ^ f.fraction) :
    f.parts (f.sign negative + (field * 2 ^ f.fraction + fraction)) =
      if field = f.top then
        if fraction = 0 then .infinite negative else .nan negative fraction
      else if field = 0 then .finite negative fraction f.least
      else .finite negative (2 ^ f.fraction + fraction) (f.least + (field - 1 : Nat)) := by
  have hlt := fields_lt hfield hfraction
  have hpos := Nat.two_pow_pos f.fraction
  have hfield' : (field * 2 ^ f.fraction + fraction) / 2 ^ f.fraction = field := by
    rw [Nat.add_comm, Nat.add_mul_div_right _ _ hpos, Nat.div_eq_of_lt hfraction, Nat.zero_add]
  have hfraction' : (field * 2 ^ f.fraction + fraction) % 2 ^ f.fraction = fraction := by
    rw [Nat.add_comm, Nat.add_mul_mod_self_right, Nat.mod_eq_of_lt hfraction]
  have hsign : decide (f.signBit ≤ f.sign negative + (field * 2 ^ f.fraction + fraction)) =
      negative := by
    cases negative with
    | false => simpa [sign] using hlt
    | true => simp [sign]
  have hmagnitude : (f.sign negative + (field * 2 ^ f.fraction + fraction)) % f.signBit =
      field * 2 ^ f.fraction + fraction := by
    cases negative with
    | false => rw [sign, if_neg Bool.false_ne_true, Nat.zero_add, Nat.mod_eq_of_lt hlt]
    | true => rw [sign, if_pos rfl, Nat.add_mod_left, Nat.mod_eq_of_lt hlt]
  unfold parts
  simp only [hsign, hmagnitude, hfield', hfraction']

/-- Every bit pattern is a sign, an exponent and a fraction. -/
theorem exists_fields {bits : Nat} (h : bits < 2 * f.signBit) :
    ∃ negative field fraction, field ≤ f.top ∧ fraction < 2 ^ f.fraction ∧
      bits = f.sign negative + (field * 2 ^ f.fraction + fraction) := by
  have hpos : 0 < f.signBit := Nat.two_pow_pos _
  have hmagnitude := Nat.mod_lt bits hpos
  refine ⟨decide (f.signBit ≤ bits), bits % f.signBit / 2 ^ f.fraction,
    bits % f.signBit % 2 ^ f.fraction, ?_, Nat.mod_lt _ (Nat.two_pow_pos _), ?_⟩
  · refine Nat.lt_add_one_iff.mp ((Nat.div_lt_iff_lt_mul (Nat.two_pow_pos _)).mpr ?_)
    rw [← signBit_eq]
    exact hmagnitude
  · rw [Nat.div_add_mod']
    by_cases hle : f.signBit ≤ bits
    · rw [sign, if_pos (decide_eq_true hle), Nat.mod_eq_sub_mod hle, Nat.mod_eq_of_lt (by omega)]
      omega
    · rw [sign, if_neg (by simpa using hle), Nat.mod_eq_of_lt (by omega), Nat.zero_add]

/-! ## Units -/

theorem inUnits_of_le (h : q ≤ e) : inUnits m e q = m * 2 ^ (e - q).toNat := if_pos h

theorem divToEven_mul_self (m : Nat) {d : Nat} (hd : 0 < d) : divToEven (m * d) d = m := by
  unfold divToEven
  rw [Nat.mul_mod_left, if_pos (by omega), Nat.mul_div_left _ hd]

/-- Trailing zeros are taken off without rounding. -/
theorem inUnits_mul_two_pow (m k : Nat) (q : Int) : inUnits (m * 2 ^ k) (q - k) q = m := by
  unfold inUnits
  by_cases hk : k = 0
  · subst hk
    simp
  · rw [if_neg (by omega), show (q - (q - (k : Int))).toNat = k by omega]
    exact divToEven_mul_self m (Nat.two_pow_pos k)

theorem magnitudeBits_zero (f : FloatFormat) (e : Int) : f.magnitudeBits 0 e = 0 := if_pos rfl

/-- The bits of a magnitude are at most those of infinity. -/
theorem magnitudeBits_le (f : FloatFormat) (m : Nat) (e : Int) :
    f.magnitudeBits m e ≤ f.top * 2 ^ f.fraction := by
  unfold magnitudeBits
  split
  · exact Nat.zero_le _
  · exact Nat.min_le_left _ _

/-! ## Both formats -/

theorem log2_le_of_lt (hm : m ≠ 0) (h : m < 2 ^ 24) : m.log2 ≤ 23 :=
  Nat.le_of_lt_add_one ((Nat.log2_lt hm).mpr h)

/-- The significand of a number of the 32-bit format, moved to the leading place of the 64-bit
format. -/
theorem double_significand (hm : m ≠ 0) (h : m < 2 ^ 24) :
    2 ^ 52 ≤ m * 2 ^ (52 - m.log2) ∧ m * 2 ^ (52 - m.log2) < 2 ^ 53 := by
  have hlog := log2_le_of_lt hm h
  have hlow := Nat.mul_le_mul_right (2 ^ (52 - m.log2)) (Nat.log2_self_le hm)
  have hhigh := Nat.mul_lt_mul_of_pos_right (Nat.lt_log2_self (n := m))
    (Nat.two_pow_pos (52 - m.log2))
  rw [← Nat.pow_add] at hlow hhigh
  rw [show m.log2 + (52 - m.log2) = 52 by omega] at hlow
  rw [show m.log2 + 1 + (52 - m.log2) = 53 by omega] at hhigh
  exact ⟨hlow, hhigh⟩

/-- In double precision the magnitude fills up the fraction. -/
theorem parts_double (hm : m ≠ 0) (h : m < 2 ^ 24) (hlow : single.least ≤ e) (hhigh : e ≤ 104) :
    double.parts (double.sign negative + double.magnitudeBits m e) =
      .finite negative (m * 2 ^ (52 - m.log2)) (e - (52 - m.log2 : Nat)) := by
  have hlog := log2_le_of_lt hm h
  obtain ⟨hsmall, hlarge⟩ := double_significand hm h
  have hleast : single.least = -149 := rfl
  have hleast' : double.least = -1074 := rfl
  have hq : max double.least (e + (m.log2 : Nat) - double.fraction) = e - (52 - m.log2 : Nat) := by
    rw [fraction_double]
    omega
  have hbits : double.magnitudeBits m e =
      (e - (52 - m.log2 : Nat) + 1075).toNat * 2 ^ double.fraction +
        (m * 2 ^ (52 - m.log2) - 2 ^ 52) := by
    rw [magnitudeBits, if_neg hm]
    simp only [hq]
    rw [inUnits_of_le (by omega),
      show (e - (e - ((52 - m.log2 : Nat) : Int))).toNat = 52 - m.log2 by omega,
      fraction_double, top_double, hleast',
      show (e - (52 - m.log2 : Nat) + 1075).toNat =
        (e - (52 - m.log2 : Nat) - -1074).toNat + 1 by omega]
    rw [Nat.min_eq_right (by omega), Nat.succ_mul]
    omega
  rw [hbits, parts_of_fields (by rw [top_double]; omega)
    (by rw [fraction_double]; omega), if_neg, if_neg]
  · rw [fraction_double, hleast']
    rw [Nat.add_sub_cancel' hsmall]
    congr 1
    omega
  · omega
  · rw [top_double]
    omega

/-- Narrowed again, the magnitude has its own bits in single precision. -/
theorem single_magnitudeBits (hm : m ≠ 0) (h : m < 2 ^ 24) (hlow : single.least ≤ e)
    (hhigh : e ≤ 104) (hfull : 2 ^ 23 ≤ m ∨ e = single.least) :
    single.magnitudeBits (m * 2 ^ (52 - m.log2)) (e - (52 - m.log2 : Nat)) =
      (e - single.least).toNat * 2 ^ 23 + m := by
  have hlog := log2_le_of_lt hm h
  obtain ⟨hsmall, hlarge⟩ := double_significand hm h
  have hlog' : (m * 2 ^ (52 - m.log2)).log2 = 52 :=
    (Nat.log2_eq_iff (by omega)).mpr ⟨hsmall, hlarge⟩
  have hleast : single.least = -149 := rfl
  have hq : max single.least (e - (52 - m.log2 : Nat) + (52 : Nat) - single.fraction) = e := by
    rw [fraction_single]
    rcases hfull with hfull | rfl
    · have hlog := (Nat.le_log2 hm).mpr hfull
      omega
    · omega
  rw [magnitudeBits, if_neg (by omega), hlog']
  simp only [hq]
  rw [inUnits_mul_two_pow, fraction_single, top_single]
  omega

/-- A finite number comes back with its bits. -/
theorem convert_of_finite {bits : Nat} (hparts : single.parts bits = .finite negative m e)
    (h : m < 2 ^ 24) (hlow : single.least ≤ e) (hhigh : e ≤ 104)
    (hfull : 2 ^ 23 ≤ m ∨ e = single.least) :
    convert double single (convert single double bits) =
      single.sign negative + ((e - single.least).toNat * 2 ^ 23 + m) := by
  unfold convert
  simp only [hparts]
  by_cases hm : m = 0
  · subst hm
    have hzero : double.parts (double.sign negative) = .finite negative 0 double.least := by
      have hfields := @parts_of_fields double negative 0 0 (Nat.zero_le double.top)
        (Nat.two_pow_pos double.fraction)
      rw [Nat.zero_mul] at hfields
      exact hfields
    have he : e = single.least := by
      rcases hfull with hfull | he
      · omega
      · exact he
    simp only [magnitudeBits_zero, hzero, he, Int.sub_self, Int.toNat_zero, Nat.zero_mul,
      Nat.add_zero]
  · simp only [parts_double hm h hlow hhigh]
    rw [single_magnitudeBits hm h hlow hhigh hfull]

theorem convert_of_infinite {bits : Nat} (hparts : single.parts bits = .infinite negative) :
    convert double single (convert single double bits) =
      single.sign negative + single.top * 2 ^ single.fraction := by
  have hfields := @parts_of_fields double negative double.top 0 (Nat.le_refl double.top)
    (Nat.two_pow_pos double.fraction)
  rw [if_pos rfl, if_pos rfl, Nat.add_zero] at hfields
  unfold convert
  simp only [hparts, hfields]

/-- A number of the 32-bit format comes back. -/
theorem convert_convert {bits : Nat} (h : bits < 2 ^ 32) (hnan : single.isNaN bits = false) :
    convert double single (convert single double bits) = bits := by
  obtain ⟨negative, field, fraction, hfield, hfraction, rfl⟩ := exists_fields (f := single) h
  have hparts := @parts_of_fields single negative field fraction hfield hfraction
  have hleast : single.least = -149 := rfl
  rw [top_single] at hfield
  rw [fraction_single] at hfraction
  by_cases htop : field = single.top
  · rw [if_pos htop] at hparts
    by_cases hzero : fraction = 0
    · rw [if_pos hzero] at hparts
      rw [convert_of_infinite hparts, htop, hzero, Nat.add_zero]
    · rw [if_neg hzero] at hparts
      rw [isNaN, hparts] at hnan
      cases hnan
  · rw [if_neg htop] at hparts
    rw [top_single] at htop
    by_cases hzero : field = 0
    · rw [if_pos hzero] at hparts
      rw [convert_of_finite hparts (by omega) (Int.le_refl _) (by omega) (Or.inr rfl), hzero,
        Int.sub_self, Int.toNat_zero, Nat.zero_mul, Nat.zero_mul]
    · rw [if_neg hzero] at hparts
      have hfull : 2 ^ single.fraction = 2 ^ 23 := rfl
      rw [convert_of_finite hparts (by omega) (by omega) (by omega) (Or.inl (by omega)), hfull]
      omega

/-- What is widened fits in 64 bits. -/
theorem convert_lt {bits : Nat} (hnan : single.isNaN bits = false) :
    convert single double bits < 2 ^ 64 := by
  have hsign : ∀ negative, double.sign negative ≤ 2 ^ 63 := by
    rintro (_ | _)
    · exact Nat.zero_le _
    · exact Nat.le_refl _
  unfold isNaN at hnan
  unfold convert
  cases hparts : single.parts bits with
  | nan negative payload =>
    rw [hparts] at hnan
    cases hnan
  | infinite negative =>
    have hsign := hsign negative
    simp only
    rw [top_double, fraction_double]
    omega
  | finite negative m e =>
    have hsign := hsign negative
    have hmagnitude := magnitudeBits_le double m e
    rw [top_double, fraction_double] at hmagnitude
    simp only
    omega

end FloatFormat

/-- A float that is a number is the same after it has been widened and narrowed. -/
theorem Binary32.narrow_widen {x : Binary32} (h : x.isNaN = false) : x.widen.narrow = x := by
  have hwide : x.widen.bits.toNat = FloatFormat.convert .single .double x.bits.toNat := by
    rw [Binary32.widen, UInt64.toNat_ofNat']
    exact Nat.mod_eq_of_lt (FloatFormat.convert_lt h)
  rw [Binary64.narrow, hwide, FloatFormat.convert_convert x.bits.toNat_lt h, UInt32.ofNat_toNat]

end RecordLayout
