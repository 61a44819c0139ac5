import Mathlib
import Cbor.Proofs.Binary.Value

namespace Cbor.Binary

namespace Format

variable {f : Format} {narrow : Nat → Nat} {x a : Nat}

/-- The patterns stand for numbers that compare as equal: the two zeros do. -/
def Equal (f : Format) (a b : Nat) : Prop :=
  ∃ negative negative' v, f.value? a = some (negative, v) ∧ f.value? b = some (negative', v) ∧
    (negative = negative' ∨ v = 0)

theorem value?_zero (hf : 0 < f.infinity) (negative : Bool) :
    f.value? (f.signed negative 0) = some (negative, 0) := by
  have hz : f.number 0 = 0 := by
    rw [number, significand_eq, magnitude_of_lt f f.signBit_pos, if_pos (Nat.two_pow_pos _)]
    simp
  rw [value?_signed (Nat.zero_le _), if_pos hf, hz]
  rfl

theorem Equal.refl (h : f.isNaN a = false) : f.Equal a a := by
  rcases value?_cases h with ⟨-, hv⟩ | ⟨-, hv⟩ <;> exact ⟨_, _, _, hv, hv, .inl rfl⟩

/-- `narrow` gives the pattern of `f` that has the value of a double, if there is one. -/
structure Finds (f : Format) (narrow : Nat → Nat) : Prop where
  within : f.Within double
  isNaN {x : Nat} : double.isNaN x = false → f.isNaN (narrow x) = false
  lt {x : Nat} : double.isNaN x = false → narrow x < 2 * f.signBit
  eq {x a : Nat} : x < 2 * double.signBit → double.isNaN x = false → a < 2 * f.signBit →
    f.value? a = double.value? x → narrow x = a

namespace Finds

variable (h : f.Finds narrow) (hx : double.isNaN x = false)

include h hx

theorem value?_widen : double.value? (convert f double (narrow x)) = f.value? (narrow x) :=
  h.within.value?_convert (h.isNaN hx)

theorem widen_eq_iff (hlt : x < 2 * double.signBit) : convert f double (narrow x) = x ↔
    ∃ a < 2 * f.signBit, f.value? a = double.value? x := by
  constructor
  · intro he
    exact ⟨narrow x, h.lt hx, by rw [← h.value?_widen hx, he]⟩
  · rintro ⟨a, ha, hv⟩
    rw [h.eq hlt hx ha hv]
    exact convert_eq hlt (isNaN_of_value?_eq hx hv.symm) hv

/-- To compare as numbers what has been narrowed and widened comes to comparing the patterns, because
the narrower format has both zeros. -/
theorem equal_widen_iff (hlt : x < 2 * double.signBit) :
    double.Equal (convert f double (narrow x)) x ↔ convert f double (narrow x) = x := by
  constructor
  · rintro ⟨negative, negative', v, hn, hw, heq⟩
    refine (h.widen_eq_iff hx hlt).2 ?_
    rcases heq with rfl | rfl
    · exact ⟨narrow x, h.lt hx, by rw [← h.value?_widen hx, hn, hw]⟩
    · refine ⟨f.signed negative' 0, signed_lt f.signBit_pos _, hw ▸ value?_zero ?_ negative'⟩
      have hbits : 2 ^ 1 < 2 ^ f.exponentBits :=
        Nat.pow_lt_pow_right one_lt_two h.within.exponentBits
      rw [infinity_eq]
      exact Nat.mul_pos (by omega) (Nat.two_pow_pos _)
  · intro he
    rw [he]
    exact .refl hx

end Finds

def cut (bits : Nat) : Nat := if double.isNaN bits then bits else (bits >>> 32) <<< 32

theorem cut_of_not_isNaN (hx : double.isNaN x = false) : cut x = (x >>> 32) <<< 32 := by
  rw [cut, hx, if_neg Bool.false_ne_true]

theorem isNaN_cut (hx : double.isNaN x = false) : double.isNaN (cut x) = false := by
  have hle : double.magnitude x ≤ double.infinity := not_lt.1 (of_decide_eq_false hx)
  have hs : double.signBit = 9223372036854775808 := by decide
  refine decide_eq_false (not_lt.2 (Nat.le_trans ?_ hle))
  rw [cut_of_not_isNaN hx, magnitude, magnitude, hs, Nat.shiftRight_eq_div_pow, Nat.shiftLeft_eq]
  omega

/-- The bits that are cut off are zero where a half has the value. -/
theorem cut_eq (hlt : x < 2 * double.signBit) (hx : double.isNaN x = false)
    (hv : half.value? a = double.value? x) : cut x = x := by
  have ha := isNaN_of_value?_eq hx hv.symm
  have hm : 2 ^ 32 ∣ double.magnitude x :=
    (pow_dvd_pow 2 (by decide)).trans (half_within_double.two_pow_dvd_magnitude ha hv)
  have hs : 2 ^ 32 ∣ double.signBit := by decide
  have hdvd : 2 ^ 32 ∣ x := by
    rw [← signed_of_bits hlt, signed]
    split
    · exact hs.add hm
    · exact hm
  rw [cut_of_not_isNaN hx, Nat.shiftRight_eq_div_pow, Nat.shiftLeft_eq, Nat.div_mul_cancel hdvd]

theorem half_finds : half.Finds fun x ↦ convert double half (cut x) where
  within := half_within_double
  isNaN hx := Bool.eq_false_iff.2 (mt value?_eq_none.2 (value?_convert_ne_none (isNaN_cut hx)))
  lt hx := convert_lt (isNaN_cut hx)
  eq hlt hx ha hv := by
    rw [cut_eq hlt hx hv]
    exact convert_eq ha hx hv.symm

theorem single_finds : single.Finds (convert double single) where
  within := single_within_double
  isNaN hx := Bool.eq_false_iff.2 (mt value?_eq_none.2 (value?_convert_ne_none hx))
  lt := convert_lt
  eq _ hx ha hv := convert_eq ha hx hv.symm

end Format

open Format

variable {x : UInt64} {h : UInt16} {s : UInt32}

theorem toNat_narrowHalf (hx : double.isNaN x.toNat = false) :
    (narrowHalf x).toNat = convert double half (cut x.toNat) :=
  UInt16.toNat_ofNat_of_lt' (half_finds.lt hx)

theorem toNat_narrowSingle (hx : double.isNaN x.toNat = false) :
    (narrowSingle x).toNat = convert double single x.toNat :=
  UInt32.toNat_ofNat_of_lt' (single_finds.lt hx)

theorem toNat_widenHalf (hh : half.isNaN h.toNat = false) :
    (widenHalf h).toNat = convert half double h.toNat :=
  UInt64.toNat_ofNat_of_lt' (convert_lt hh)

theorem toNat_widenSingle (hs : single.isNaN s.toNat = false) :
    (widenSingle s).toNat = convert single double s.toNat :=
  UInt64.toNat_ofNat_of_lt' (convert_lt hs)

theorem toNat_widenHalf_narrowHalf (hx : double.isNaN x.toNat = false) :
    (widenHalf (narrowHalf x)).toNat = convert half double (convert double half (cut x.toNat)) := by
  have hn := toNat_narrowHalf hx
  rw [toNat_widenHalf (hn ▸ half_finds.isNaN hx), hn]

theorem toNat_widenSingle_narrowSingle (hx : double.isNaN x.toNat = false) :
    (widenSingle (narrowSingle x)).toNat =
      convert single double (convert double single x.toNat) := by
  have hn := toNat_narrowSingle hx
  rw [toNat_widenSingle (hn ▸ single_finds.isNaN hx), hn]

theorem narrowHalf_eq (hx : double.isNaN x.toNat = false)
    (hv : half.value? h.toNat = double.value? x.toNat) : narrowHalf x = h := by
  rw [← UInt16.toNat_inj, toNat_narrowHalf hx]
  exact half_finds.eq x.toNat_lt hx h.toNat_lt hv

theorem narrowSingle_eq (hx : double.isNaN x.toNat = false)
    (hv : single.value? s.toNat = double.value? x.toNat) : narrowSingle x = s := by
  rw [← UInt32.toNat_inj, toNat_narrowSingle hx]
  exact single_finds.eq x.toNat_lt hx s.toNat_lt hv

theorem widenSingle_eq (hx : double.isNaN x.toNat = false)
    (hv : single.value? s.toNat = double.value? x.toNat) : widenSingle s = x := by
  have hs := isNaN_of_value?_eq hx hv.symm
  rw [← UInt64.toNat_inj, toNat_widenSingle hs]
  exact convert_eq x.toNat_lt hs hv

theorem widenHalf_narrowHalf_iff (hx : double.isNaN x.toNat = false) :
    widenHalf (narrowHalf x) = x ↔ ∃ h : UInt16, half.value? h.toNat = double.value? x.toNat := by
  rw [← UInt64.toNat_inj, toNat_widenHalf_narrowHalf hx, half_finds.widen_eq_iff hx x.toNat_lt]
  constructor
  · rintro ⟨a, ha, hv⟩
    exact ⟨.ofNat a, by rwa [UInt16.toNat_ofNat_of_lt' ha]⟩
  · rintro ⟨h, hv⟩
    exact ⟨h.toNat, h.toNat_lt, hv⟩

theorem widenSingle_narrowSingle_iff (hx : double.isNaN x.toNat = false) :
    widenSingle (narrowSingle x) = x ↔
      ∃ s : UInt32, single.value? s.toNat = double.value? x.toNat := by
  rw [← UInt64.toNat_inj, toNat_widenSingle_narrowSingle hx,
    single_finds.widen_eq_iff hx x.toNat_lt]
  constructor
  · rintro ⟨a, ha, hv⟩
    exact ⟨.ofNat a, by rwa [UInt32.toNat_ofNat_of_lt' ha]⟩
  · rintro ⟨s, hv⟩
    exact ⟨s.toNat, s.toNat_lt, hv⟩

theorem equal_widenHalf_iff (hx : double.isNaN x.toNat = false) :
    double.Equal (widenHalf (narrowHalf x)).toNat x.toNat ↔ widenHalf (narrowHalf x) = x := by
  rw [← UInt64.toNat_inj, toNat_widenHalf_narrowHalf hx]
  exact half_finds.equal_widen_iff hx x.toNat_lt

theorem equal_widenSingle_iff (hx : double.isNaN x.toNat = false) :
    double.Equal (widenSingle (narrowSingle x)).toNat x.toNat ↔
      widenSingle (narrowSingle x) = x := by
  rw [← UInt64.toNat_inj, toNat_widenSingle_narrowSingle hx]
  exact single_finds.equal_widen_iff hx x.toNat_lt

end Cbor.Binary
