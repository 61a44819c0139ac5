import Mathlib
import Cbor.Binary.Format

namespace Cbor.Binary

theorem two_pow_toNat (q : Int) : (2 : ℚ) ^ q.toNat = 2 ^ q * 2 ^ (-q).toNat := by
  rw [← zpow_natCast, ← zpow_natCast, ← zpow_add₀ two_ne_zero]
  congr 1
  omega

theorem ratio_den_pos (m : Nat) (q : Int) : 0 < (ratio m q).2 := by
  rw [ratio, Nat.one_shiftLeft]
  exact Nat.two_pow_pos _

theorem cast_ratio (m : Nat) (q : Int) : ((ratio m q).1 : ℚ) / (ratio m q).2 = m * 2 ^ q := by
  have hden : (2 : ℚ) ^ (-q).toNat ≠ 0 := pow_ne_zero _ two_ne_zero
  rw [ratio, Nat.shiftLeft_eq, Nat.shiftLeft_eq, one_mul]
  push_cast
  rw [two_pow_toNat]
  field_simp

theorem shift_le_shift_iff {num den : Nat} (hd : 0 < den) (q : Int) :
    den <<< q.toNat ≤ num <<< (-q).toNat ↔ (2 : ℚ) ^ q ≤ num / den := by
  have hpow : (0 : ℚ) < 2 ^ (-q).toNat := pow_pos two_pos _
  have hd' : (0 : ℚ) < den := Nat.cast_pos.2 hd
  rw [Nat.shiftLeft_eq, Nat.shiftLeft_eq, ← Nat.cast_le (α := ℚ), le_div_iff₀ hd']
  push_cast
  rw [two_pow_toNat, ← mul_assoc, mul_le_mul_iff_of_pos_right hpow, mul_comm]

theorem log_eq_of_le_of_lt {r : ℚ} {d : Int} (hl : 2 ^ d ≤ r) (hh : r < 2 ^ (d + 1)) :
    Int.log 2 r = d := by
  have hr : 0 < r := lt_of_lt_of_le (zpow_pos two_pos d) hl
  have h₁ := (Int.zpow_le_iff_le_log (b := 2) one_lt_two hr).1 (by exact_mod_cast hl)
  have h₂ := (Int.lt_zpow_iff_log_lt (b := 2) one_lt_two hr).1 (by exact_mod_cast hh)
  omega

theorem log2Ratio_eq {num den : Nat} (hn : 0 < num) (hd : 0 < den) :
    log2Ratio num den = Int.log 2 ((num : ℚ) / den) := by
  have hn' : (0 : ℚ) < num := Nat.cast_pos.2 hn
  have hd' : (0 : ℚ) < den := Nat.cast_pos.2 hd
  have hnl : (2 : ℚ) ^ num.log2 ≤ num := by exact_mod_cast Nat.log2_self_le hn.ne'
  have hnh : (num : ℚ) < 2 ^ (num.log2 + 1) := by exact_mod_cast Nat.lt_log2_self
  have hdl : (2 : ℚ) ^ den.log2 ≤ den := by exact_mod_cast Nat.log2_self_le hd.ne'
  have hdh : (den : ℚ) < 2 ^ (den.log2 + 1) := by exact_mod_cast Nat.lt_log2_self
  let d : Int := num.log2 - den.log2
  have hlow : (2 : ℚ) ^ (d - 1) ≤ num / den := by
    have hd1 : d - 1 = (num.log2 : Int) - (den.log2 + 1 : Nat) := by simp only [d]; push_cast; omega
    rw [hd1, zpow_sub₀ two_ne_zero, zpow_natCast, zpow_natCast]
    exact div_le_div₀ hn'.le hnl hd' hdh.le
  have hhigh : (num : ℚ) / den < 2 ^ (d + 1) := by
    have hd1 : d + 1 = (num.log2 + 1 : Nat) - (den.log2 : Int) := by simp only [d]; push_cast; omega
    rw [hd1, zpow_sub₀ two_ne_zero, zpow_natCast, zpow_natCast]
    exact div_lt_div₀ hnh hdl (by positivity) (by positivity)
  rw [log2Ratio]
  split
  case isTrue h => exact (log_eq_of_le_of_lt ((shift_le_shift_iff hd d).1 h) hhigh).symm
  case isFalse h =>
    have hlt : (num : ℚ) / den < 2 ^ (d - 1 + 1) := by
      rw [sub_add_cancel]
      exact not_le.1 (mt (shift_le_shift_iff hd d).2 h)
    exact (log_eq_of_le_of_lt hlow hlt).symm

theorem roundEven_of_eq_mul {num den n : Nat} (hd : 0 < den) (h : num = n * den) :
    roundEven num den = n := by
  have hc : compare (2 * (num % den)) den = .lt := by
    rw [h, Nat.mul_mod_left, Nat.compare_eq_lt]
    exact hd
  simp only [roundEven, hc]
  rw [h, Nat.mul_div_cancel _ hd]

/-- What is as great as its own significand is a multiple of the power that is left over. -/
theorem two_pow_dvd_of_eq {s n j k : Nat} {q place : Int} (he : (s : ℚ) * 2 ^ q = n * 2 ^ place)
    (hs : s < 2 ^ j) (hn : 2 ^ k ≤ n) : 2 ^ (k - j) ∣ n := by
  have hquot : (n : ℚ) = s * 2 ^ (q - place) := by
    rw [zpow_sub₀ two_ne_zero, ← mul_div_assoc, he, mul_div_cancel_right₀]
    exact zpow_ne_zero _ two_ne_zero
  have hlt : (2 : ℚ) ^ (k : Int) < 2 ^ (j + (q - place)) := by
    rw [zpow_add₀ two_ne_zero, zpow_natCast, zpow_natCast]
    calc (2 : ℚ) ^ k
      _ ≤ n := by exact_mod_cast hn
      _ = s * 2 ^ (q - place) := hquot
      _ < 2 ^ j * 2 ^ (q - place) :=
        mul_lt_mul_of_pos_right (by exact_mod_cast hs) (zpow_pos two_pos _)
  have hkj := (zpow_lt_zpow_iff_right₀ (one_lt_two (α := ℚ))).1 hlt
  by_cases hneg : q - place < 0
  · rw [Nat.sub_eq_zero_of_le (by omega)]
    exact one_dvd n
  · have htoNat : ((q - place).toNat : Int) = q - place := Int.toNat_of_nonneg (not_lt.1 hneg)
    rw [← htoNat, zpow_natCast] at hquot
    have hnat : n = s * 2 ^ (q - place).toNat := by exact_mod_cast hquot
    rw [hnat]
    exact (pow_dvd_pow 2 (by omega)).mul_left s

namespace Format

variable (f : Format)

/-- A significand and an exponent in which a number of the format is written. -/
structure Canonical (n : Nat) (place : Int) : Prop where
  least : f.leastExponent ≤ place
  lt : n < 2 ^ (f.fractionBits + 1)
  normal : f.leastExponent < place → 2 ^ f.fractionBits ≤ n

def pack (n : Nat) (place : Int) : Nat :=
  ((place - f.leastExponent).toNat <<< f.fractionBits) + n

def number (bits : Nat) : ℚ := f.significand bits * 2 ^ f.exponent bits

theorem signBit_eq : f.signBit = 2 ^ f.exponentBits * 2 ^ f.fractionBits := by
  rw [signBit, Nat.shiftLeft_eq, one_mul, pow_add]

theorem infinity_eq : f.infinity = (2 ^ f.exponentBits - 1) * 2 ^ f.fractionBits := by
  rw [infinity, Nat.shiftLeft_eq, Nat.shiftLeft_eq, one_mul]

theorem infinity_lt_signBit : f.infinity < f.signBit := by
  rw [infinity_eq, signBit_eq]
  exact Nat.mul_lt_mul_of_pos_right (Nat.sub_lt (Nat.two_pow_pos _) one_pos) (Nat.two_pow_pos _)

theorem signBit_pos : 0 < f.signBit := Nat.zero_lt_of_lt f.infinity_lt_signBit

theorem magnitude_of_lt {bits : Nat} (h : bits < f.signBit) : f.magnitude bits = bits :=
  Nat.mod_eq_of_lt h

theorem magnitude_lt (bits : Nat) : f.magnitude bits < f.signBit := Nat.mod_lt _ f.signBit_pos

theorem significand_eq (bits : Nat) : f.significand bits =
    if f.magnitude bits < 2 ^ f.fractionBits then f.magnitude bits
    else f.magnitude bits % 2 ^ f.fractionBits + 2 ^ f.fractionBits := by
  simp only [significand, Nat.shiftLeft_eq, one_mul]

theorem exponent_eq (bits : Nat) : f.exponent bits =
    (max 1 (f.magnitude bits / 2 ^ f.fractionBits) : Nat) - 1 + f.leastExponent := by
  simp only [exponent, Nat.shiftRight_eq_div_pow]

theorem significand_magnitude (bits : Nat) :
    f.significand (f.magnitude bits) = f.significand bits := by
  rw [significand_eq, significand_eq, magnitude_of_lt f (f.magnitude_lt bits)]

theorem exponent_magnitude (bits : Nat) : f.exponent (f.magnitude bits) = f.exponent bits := by
  rw [exponent_eq, exponent_eq, magnitude_of_lt f (f.magnitude_lt bits)]

theorem pack_eq (n : Nat) (place : Int) :
    f.pack n place = (place - f.leastExponent).toNat * 2 ^ f.fractionBits + n := by
  rw [pack, Nat.shiftLeft_eq]

theorem canonical_of_bits (bits : Nat) : f.Canonical (f.significand bits) (f.exponent bits) := by
  have hpos := Nat.two_pow_pos f.fractionBits
  rw [significand_eq, exponent_eq]
  generalize f.magnitude bits = m
  have hmod := Nat.mod_lt m hpos
  refine ⟨by omega, ?_, fun h ↦ ?_⟩
  · rw [pow_succ]
    split <;> omega
  · split
    · rename_i hm
      rw [Nat.div_eq_of_lt hm] at h
      omega
    · omega

theorem pack_of_bits (bits : Nat) :
    f.pack (f.significand bits) (f.exponent bits) = f.magnitude bits := by
  have hpos := Nat.two_pow_pos f.fractionBits
  rw [pack_eq, significand_eq, exponent_eq, add_sub_cancel_right]
  generalize f.magnitude bits = m
  split
  · rename_i hm
    rw [Nat.div_eq_of_lt hm]
    simp
  · rename_i hm
    have hdiv : 1 ≤ m / 2 ^ f.fractionBits := (Nat.one_le_div_iff hpos).2 (not_lt.1 hm)
    have htoNat : (((max 1 (m / 2 ^ f.fractionBits) : Nat) : Int) - 1).toNat =
        m / 2 ^ f.fractionBits - 1 := by omega
    rw [htoNat, Nat.sub_mul, one_mul]
    have hle : 2 ^ f.fractionBits ≤ m / 2 ^ f.fractionBits * 2 ^ f.fractionBits :=
      Nat.le_mul_of_pos_left _ hdiv
    have hm := Nat.div_add_mod' m (2 ^ f.fractionBits)
    omega

variable {f} {n : Nat} {place : Int}

namespace Canonical

theorem significand_pack (h : f.Canonical n place) (hs : f.pack n place < f.signBit) :
    f.significand (f.pack n place) = n := by
  have hpos := Nat.two_pow_pos f.fractionBits
  have hlt := h.lt
  rw [pow_succ] at hlt
  rw [significand_eq, magnitude_of_lt f hs, pack_eq]
  by_cases hn : n < 2 ^ f.fractionBits
  · have hp : (place - f.leastExponent).toNat = 0 := by
      have := mt h.normal (not_le.2 hn)
      omega
    rw [hp, zero_mul, zero_add, if_pos hn]
  · have hmod : n % 2 ^ f.fractionBits = n - 2 ^ f.fractionBits := by
      rw [Nat.mod_eq_sub_mod (not_lt.1 hn), Nat.mod_eq_of_lt (by omega)]
    rw [if_neg (by omega), Nat.mul_add_mod', hmod]
    omega

theorem exponent_pack (h : f.Canonical n place) (hs : f.pack n place < f.signBit) :
    f.exponent (f.pack n place) = place := by
  have hpos := Nat.two_pow_pos f.fractionBits
  have hlt := h.lt
  have hleast := h.least
  rw [pow_succ] at hlt
  rw [exponent_eq, magnitude_of_lt f hs, pack_eq, Nat.add_comm, Nat.add_mul_div_right _ _ hpos]
  by_cases hn : n < 2 ^ f.fractionBits
  · have hp := mt h.normal (not_le.2 hn)
    rw [Nat.div_eq_of_lt hn]
    omega
  · have hdiv : n / 2 ^ f.fractionBits = 1 :=
      Nat.div_eq_of_lt_le (by omega) (by omega)
    rw [hdiv]
    omega

theorem number_pack (h : f.Canonical n place) (hs : f.pack n place < f.signBit) :
    f.number (f.pack n place) = n * 2 ^ place := by
  rw [number, h.significand_pack hs, h.exponent_pack hs]

theorem log_eq (h : f.Canonical n place) (hn : 0 < n) :
    max (Int.log 2 ((n : ℚ) * 2 ^ place) - f.fractionBits) f.leastExponent = place := by
  have hleast := h.least
  have hlow : (2 : ℚ) ^ (Nat.log2 n + place) ≤ n * 2 ^ place := by
    rw [zpow_add₀ two_ne_zero, zpow_natCast]
    exact mul_le_mul_of_nonneg_right (by exact_mod_cast Nat.log2_self_le hn.ne') (by positivity)
  have hhigh : (n : ℚ) * 2 ^ place < 2 ^ (Nat.log2 n + place + 1) := by
    rw [add_right_comm, zpow_add₀ two_ne_zero]
    refine mul_lt_mul_of_pos_right ?_ (by positivity)
    exact_mod_cast Nat.lt_log2_self
  have hlog2 : Nat.log2 n < f.fractionBits + 1 := (Nat.log2_lt hn.ne').2 h.lt
  rw [log_eq_of_le_of_lt hlow hhigh]
  by_cases hp : f.leastExponent < place
  · have : f.fractionBits ≤ Nat.log2 n := (Nat.le_log2 hn.ne').2 (h.normal hp)
    omega
  · omega

/-- A ratio that is a number of the format is rounded to its pattern. -/
theorem nearest_eq (h : f.Canonical n place) {num den : Nat} (hd : 0 < den)
    (he : (num : ℚ) / den = n * 2 ^ place) :
    f.nearest num den = min f.infinity (f.pack n place) := by
  have hd' : (den : ℚ) ≠ 0 := Nat.cast_ne_zero.2 hd.ne'
  have hplace : (2 : ℚ) ^ place ≠ 0 := zpow_ne_zero _ two_ne_zero
  rcases Nat.eq_zero_or_pos num with rfl | hnum
  · have hn : n = 0 := by simpa [hplace] using he.symm
    have hp : ¬ f.leastExponent < place := fun hl ↦ by
      have := h.normal hl
      have := Nat.two_pow_pos f.fractionBits
      omega
    have hz : (place - f.leastExponent).toNat = 0 := by omega
    rw [nearest, if_pos rfl, pack_eq, hz, hn]
    simp
  · have hn : 0 < n := by
      rcases Nat.eq_zero_or_pos n with rfl | hn
      · rw [Nat.cast_zero, zero_mul, div_eq_zero_iff] at he
        exact absurd he (by simp [hnum.ne', hd.ne'])
      · exact hn
    have hexact : num <<< (-place).toNat = n * (den <<< place.toNat) := by
      rw [Nat.shiftLeft_eq, Nat.shiftLeft_eq, ← Nat.cast_inj (R := ℚ)]
      push_cast
      rw [two_pow_toNat place, (div_eq_iff hd').1 he]
      ring
    have hden : 0 < den <<< place.toNat := by
      rw [Nat.shiftLeft_eq]
      positivity
    rw [nearest, if_neg hnum.ne', log2Ratio_eq hnum hd, he, h.log_eq hn]
    simp only [roundEven_of_eq_mul hden hexact]
    rfl

end Canonical

theorem nearest_le_infinity (num den : Nat) : f.nearest num den ≤ f.infinity := by
  rw [nearest]
  split
  · exact Nat.zero_le _
  · exact Nat.min_le_left _ _

variable (f) in
/-- The sign of a pattern, and the number or infinity that it stands for. A NaN stands for none. -/
def value? (bits : Nat) : Option (Bool × WithTop ℚ) :=
  if f.isNaN bits then none
  else some (f.isNegative bits, if f.isFinite bits then (f.number bits : WithTop ℚ) else ⊤)

theorem value?_eq_none {bits : Nat} : f.value? bits = none ↔ f.isNaN bits = true := by
  rw [value?]
  split <;> simp_all

theorem value?_cases {bits : Nat} (h : f.isNaN bits = false) :
    (f.magnitude bits < f.infinity ∧
      f.value? bits = some (f.isNegative bits, (f.number bits : WithTop ℚ))) ∨
    (f.magnitude bits = f.infinity ∧ f.value? bits = some (f.isNegative bits, ⊤)) := by
  have hle : f.magnitude bits ≤ f.infinity := not_lt.1 (of_decide_eq_false h)
  rw [value?, h]
  rcases hle.lt_or_eq with hlt | heq
  · exact .inl ⟨hlt, by simp [isFinite, hlt]⟩
  · exact .inr ⟨heq, by simp [isFinite, heq]⟩

variable (f) in
def signed (negative : Bool) (m : Nat) : Nat := if negative then f.signBit + m else m

theorem signed_of_bits {bits : Nat} (h : bits < 2 * f.signBit) :
    f.signed (f.isNegative bits) (f.magnitude bits) = bits := by
  by_cases hb : f.signBit ≤ bits
  · have hm : f.magnitude bits = bits - f.signBit := by
      rw [magnitude, Nat.mod_eq_sub_mod hb, Nat.mod_eq_of_lt (by omega)]
    rw [signed, isNegative, decide_eq_true hb, if_pos rfl, hm]
    omega
  · rw [signed, isNegative, decide_eq_false hb, if_neg Bool.false_ne_true,
      magnitude_of_lt f (not_le.1 hb)]

theorem isNegative_signed {m : Nat} (h : m < f.signBit) (negative : Bool) :
    f.isNegative (f.signed negative m) = negative := by
  cases negative with
  | false => exact decide_eq_false (not_le.2 h)
  | true => exact decide_eq_true (Nat.le_add_right _ _)

theorem magnitude_signed {m : Nat} (h : m < f.signBit) (negative : Bool) :
    f.magnitude (f.signed negative m) = m := by
  cases negative with
  | false => exact Nat.mod_eq_of_lt h
  | true => exact (Nat.add_mod_left _ _).trans (Nat.mod_eq_of_lt h)

theorem signed_lt {m : Nat} (h : m < f.signBit) (negative : Bool) :
    f.signed negative m < 2 * f.signBit := by
  cases negative <;> simp only [signed, if_true, Bool.false_eq_true, if_false] <;> omega

theorem value?_signed {m : Nat} (h : m ≤ f.infinity) (negative : Bool) :
    f.value? (f.signed negative m) =
      some (negative, if m < f.infinity then (f.number m : WithTop ℚ) else ⊤) := by
  have hlt : m < f.signBit := Nat.lt_of_le_of_lt h f.infinity_lt_signBit
  have hnumber : f.number (f.signed negative m) = f.number m := by
    rw [number, ← significand_magnitude, ← exponent_magnitude, magnitude_signed hlt, number]
  simp only [value?, isNaN, isFinite, isNegative_signed hlt, magnitude_signed hlt, not_lt.2 h,
    decide_false, Bool.false_eq_true, if_false, decide_eq_true_eq, hnumber]

end Format

variable {src dst : Format} {a b : Nat}

theorem convert_of_not_isNaN (h : src.isNaN a = false) : convert src dst a =
    dst.signed (src.isNegative a)
      (if src.magnitude a = src.infinity then dst.infinity
        else dst.nearest (src.fraction (src.magnitude a)).1 (src.fraction (src.magnitude a)).2) := by
  have hle : ¬ src.infinity < src.magnitude a := of_decide_eq_false h
  simp only [convert, if_neg hle, Format.signed]

theorem convert_eq_signed (dst : Format) (h : src.isNaN a = false) :
    ∃ m, m ≤ dst.infinity ∧ convert src dst a = dst.signed (src.isNegative a) m := by
  refine ⟨_, ?_, convert_of_not_isNaN h⟩
  split
  · exact Nat.le_refl _
  · exact dst.nearest_le_infinity _ _

theorem value?_convert_ne_none (h : src.isNaN a = false) : dst.value? (convert src dst a) ≠ none := by
  obtain ⟨m, hm, he⟩ := convert_eq_signed dst h
  rw [he, Format.value?_signed hm]
  exact Option.some_ne_none _

theorem convert_lt (h : src.isNaN a = false) : convert src dst a < 2 * dst.signBit := by
  obtain ⟨m, hm, he⟩ := convert_eq_signed dst h
  rw [he]
  exact Format.signed_lt (Nat.lt_of_le_of_lt hm dst.infinity_lt_signBit) _

theorem fraction_den_pos (src : Format) (a : Nat) : 0 < (src.fraction a).2 := ratio_den_pos _ _

theorem cast_fraction (src : Format) (a : Nat) :
    ((src.fraction (src.magnitude a)).1 : ℚ) / (src.fraction (src.magnitude a)).2 =
      src.number a := by
  rw [Format.fraction, cast_ratio, Format.number, Format.significand_magnitude,
    Format.exponent_magnitude]

theorem isNaN_of_value?_eq (ha : src.isNaN a = false) (h : src.value? a = dst.value? b) :
    dst.isNaN b = false := by
  rw [Bool.eq_false_iff]
  intro hn
  rw [Format.value?_eq_none.2 hn, Format.value?_eq_none, ha] at h
  cases h

/-- A pattern with a value that the other format has also is converted to the pattern of that. -/
theorem convert_eq (hb : b < 2 * dst.signBit) (ha : src.isNaN a = false)
    (h : src.value? a = dst.value? b) : convert src dst a = b := by
  have hnb := isNaN_of_value?_eq ha h
  rw [convert_of_not_isNaN ha]
  rcases Format.value?_cases ha with ⟨hma, hva⟩ | ⟨hma, hva⟩ <;>
    rcases Format.value?_cases hnb with ⟨hmb, hvb⟩ | ⟨hmb, hvb⟩ <;>
    rw [hva, hvb, Option.some.injEq, Prod.mk.injEq] at h
  · obtain ⟨hsign, hnumber⟩ := h
    have hnumber : src.number a = dst.number b := WithTop.coe_injective hnumber
    have hn := (dst.canonical_of_bits b).nearest_eq (fraction_den_pos src (src.magnitude a))
      ((cast_fraction src a).trans hnumber)
    rw [if_neg hma.ne, hn, dst.pack_of_bits, min_eq_right hmb.le, hsign]
    exact Format.signed_of_bits hb
  · exact absurd h.2 (WithTop.coe_ne_top)
  · exact absurd h.2.symm (WithTop.coe_ne_top)
  · rw [if_pos hma, ← hmb, h.1]
    exact Format.signed_of_bits hb

/-- All numbers of `src` are numbers of `dst`, and not the smallest ones. -/
structure Format.Within (src dst : Format) : Prop where
  exponentBits : 1 < src.exponentBits
  widens : src.exponentBits ≤ dst.exponentBits
  fractionBits : src.fractionBits ≤ dst.fractionBits
  least : dst.leastExponent + dst.fractionBits ≤ src.leastExponent
  greatest : (2 ^ src.exponentBits : Nat) + src.leastExponent + src.fractionBits ≤
    (2 ^ dst.exponentBits : Nat) + dst.leastExponent + dst.fractionBits

theorem half_within_double : half.Within double := by
  constructor <;> decide

theorem single_within_double : single.Within double := by
  constructor <;> decide

namespace Format.Within

variable (h : src.Within dst)

include h

theorem exponent_le (ha : src.magnitude a < src.infinity) :
    src.exponent a + 3 ≤ (2 ^ src.exponentBits : Nat) + src.leastExponent := by
  have hfour : 2 ^ 2 ≤ 2 ^ src.exponentBits := Nat.pow_le_pow_right two_pos h.exponentBits
  rw [infinity_eq] at ha
  have hdiv := (Nat.div_lt_iff_lt_mul (Nat.two_pow_pos _)).2 ha
  rw [exponent_eq]
  omega

theorem exists_canonical (ha : src.magnitude a < src.infinity) :
    ∃ n place, dst.Canonical n place ∧ dst.pack n place < dst.infinity ∧
      src.number a = n * 2 ^ place := by
  have hfour : 2 ^ 2 ≤ 2 ^ src.exponentBits := Nat.pow_le_pow_right two_pos h.exponentBits
  have hwide : 2 ^ src.exponentBits ≤ 2 ^ dst.exponentBits :=
    Nat.pow_le_pow_right two_pos h.widens
  rcases Nat.eq_zero_or_pos (src.significand a) with hz | hs
  · refine ⟨0, dst.leastExponent, ⟨le_refl _, Nat.two_pow_pos _, fun hl ↦ absurd hl (lt_irrefl _)⟩,
      ?_, by simp [number, hz]⟩
    rw [pack_eq, infinity_eq, sub_self]
    simp only [Int.toNat_zero, zero_mul, add_zero]
    exact Nat.mul_pos (by omega) (Nat.two_pow_pos _)
  · have hc := src.canonical_of_bits a
    have hexp := h.exponent_le ha
    have hleast := h.least
    have hcleast := hc.least
    have hgreatest := h.greatest
    have hlog : Nat.log2 (src.significand a) < src.fractionBits + 1 :=
      (Nat.log2_lt hs.ne').2 hc.lt
    have hbits := h.fractionBits
    -- the significand is moved up until it fills the wider one
    obtain ⟨up, hup⟩ := Nat.exists_eq_add_of_le
      (show Nat.log2 (src.significand a) ≤ dst.fractionBits by omega)
    have hlow : 2 ^ dst.fractionBits ≤ src.significand a * 2 ^ up := by
      rw [hup, pow_add]
      exact Nat.mul_le_mul_right _ (Nat.log2_self_le hs.ne')
    have hhigh : src.significand a * 2 ^ up < 2 ^ (dst.fractionBits + 1) := by
      rw [hup, add_right_comm, pow_add]
      exact Nat.mul_lt_mul_of_pos_right Nat.lt_log2_self (Nat.two_pow_pos _)
    refine ⟨src.significand a * 2 ^ up, src.exponent a - up, ⟨by omega, hhigh, fun _ ↦ hlow⟩,
      ?_, ?_⟩
    · have hplaces : (src.exponent a - up - dst.leastExponent).toNat + 2 ≤
          2 ^ dst.exponentBits - 1 := by omega
      rw [pack_eq, infinity_eq]
      refine Nat.lt_of_lt_of_le ?_ (Nat.mul_le_mul_right _ hplaces)
      rw [add_mul, add_lt_add_iff_left, mul_comm 2, ← pow_succ]
      exact hhigh
    · rw [number, zpow_sub₀ two_ne_zero, zpow_natCast]
      push_cast
      field_simp

/-- Widening keeps the value. -/
theorem value?_convert (ha : src.isNaN a = false) :
    dst.value? (convert src dst a) = src.value? a := by
  rw [convert_of_not_isNaN ha]
  rcases Format.value?_cases ha with ⟨hma, hva⟩ | ⟨hma, hva⟩
  · obtain ⟨n, place, hc, hlt, hnumber⟩ := h.exists_canonical hma
    have hn := hc.nearest_eq (fraction_den_pos src (src.magnitude a))
      ((cast_fraction src a).trans hnumber)
    rw [if_neg hma.ne, hn, min_eq_right hlt.le, Format.value?_signed hlt.le, if_pos hlt,
      hc.number_pack (hlt.trans dst.infinity_lt_signBit), hva, hnumber]
  · rw [if_pos hma, Format.value?_signed (le_refl _), if_neg (lt_irrefl _), hva]

/-- A number of the narrower format is not among the smallest ones of the wider one. -/
theorem le_significand {s n : Nat} {q place : Int} (hs : 0 < s) (hq : src.leastExponent ≤ q)
    (hc : dst.Canonical n place) (he : (s : ℚ) * 2 ^ q = n * 2 ^ place) :
    2 ^ dst.fractionBits ≤ n := by
  by_cases hp : dst.leastExponent < place
  · exact hc.normal hp
  · have hplace : place = dst.leastExponent := le_antisymm (not_lt.1 hp) hc.least
    have hq' : (dst.fractionBits : Int) + place ≤ q := by
      have := h.least
      omega
    have hpos : (0 : ℚ) < 2 ^ place := zpow_pos two_pos _
    have hle : (2 : ℚ) ^ dst.fractionBits * 2 ^ place ≤ n * 2 ^ place := by
      rw [← he, ← zpow_natCast, ← zpow_add₀ two_ne_zero]
      calc (2 : ℚ) ^ ((dst.fractionBits : Int) + place)
        _ ≤ 2 ^ q := zpow_le_zpow_right₀ one_le_two hq'
        _ ≤ s * 2 ^ q := le_mul_of_one_le_left (zpow_nonneg zero_le_two _) (by exact_mod_cast hs)
    exact_mod_cast le_of_mul_le_mul_right hle hpos

theorem two_pow_dvd_magnitude (ha : src.isNaN a = false) (hv : src.value? a = dst.value? b) :
    2 ^ (dst.fractionBits - (src.fractionBits + 1)) ∣ dst.magnitude b := by
  have hlow : 2 ^ (dst.fractionBits - (src.fractionBits + 1)) ∣ 2 ^ dst.fractionBits :=
    pow_dvd_pow 2 (Nat.sub_le _ _)
  have hnb := isNaN_of_value?_eq ha hv
  rcases Format.value?_cases ha with ⟨hma, hva⟩ | ⟨hma, hva⟩ <;>
    rcases Format.value?_cases hnb with ⟨hmb, hvb⟩ | ⟨hmb, hvb⟩ <;>
    rw [hva, hvb, Option.some.injEq, Prod.mk.injEq] at hv
  · have he : src.number a = dst.number b := WithTop.coe_injective hv.2
    rw [← pack_of_bits, pack_eq]
    refine (hlow.mul_left _).add ?_
    rcases Nat.eq_zero_or_pos (src.significand a) with hz | hs
    · have hn : dst.significand b = 0 := by
        simpa [number, hz, zpow_ne_zero] using he.symm
      rw [hn]
      exact dvd_zero _
    · have hc := dst.canonical_of_bits b
      have hsrc := src.canonical_of_bits a
      exact two_pow_dvd_of_eq he hsrc.lt (h.le_significand hs hsrc.least hc he)
  · exact absurd hv.2 WithTop.coe_ne_top
  · exact absurd hv.2.symm WithTop.coe_ne_top
  · rw [hmb, infinity_eq]
    exact hlow.mul_left _

end Format.Within

end Cbor.Binary
