import Cbor.Bignum

namespace Cbor

namespace Octets

theorem ofNat_toNat {width : Nat} {b : Octets} (h : b.length = width) :
    ofNat width (toNat b) = b := by
  induction width generalizing b with
  | zero => rw [List.length_eq_zero_iff.1 h, ofNat]
  | succ width ih =>
    obtain rfl | ⟨c, x, rfl⟩ := List.eq_nil_or_concat b
    · cases h
    · have hx := x.toNat_lt
      have hdiv : (toNat c * 256 + x.toNat) / 256 = toNat c := by omega
      have hlast : UInt8.ofNat (toNat c * 256 + x.toNat) = x := by
        rw [← UInt8.toNat_inj, UInt8.toNat_ofNat']
        omega
      rw [List.concat_eq_append, toNat_concat, ofNat, hdiv, hlast, ih (by simpa using h)]

theorem toNat_lt {width : Nat} {b : Octets} (h : b.length ≤ width) :
    toNat b < Nat.pow 256 width := by
  induction width generalizing b with
  | zero =>
    rw [List.length_eq_zero_iff.1 (Nat.le_zero.1 h)]
    decide
  | succ width ih =>
    obtain rfl | ⟨c, x, rfl⟩ := List.eq_nil_or_concat b
    · exact Nat.pow_pos (by decide)
    · have hx := x.toNat_lt
      have hc := ih (b := c) (by simpa using h)
      have hpow : Nat.pow 256 (width + 1) = Nat.pow 256 width * 256 := rfl
      rw [List.concat_eq_append, toNat_concat, hpow]
      omega

theorem pow_le_toNat {width : Nat} {b : Octets} (hb : b.head? ≠ some 0)
    (hl : b.length = width + 1) : Nat.pow 256 width ≤ toNat b := by
  induction width generalizing b with
  | zero =>
    obtain ⟨x, rfl⟩ := List.length_eq_one_iff.1 hl
    have hx : x.toNat ≠ 0 := fun h ↦ hb (congrArg some (UInt8.toNat_inj.1 h))
    show 1 ≤ 0 * 256 + x.toNat
    omega
  | succ width ih =>
    obtain rfl | ⟨c, x, rfl⟩ := List.eq_nil_or_concat b
    · cases hl
    · rw [List.concat_eq_append] at hb hl ⊢
      have hc : c.length = width + 1 := by simpa using hl
      have hc0 : c.head? ≠ some 0 := fun h ↦ hb (by rw [List.head?_append, h, Option.some_or])
      have hle := ih hc0 hc
      have hpow : Nat.pow 256 (width + 1) = Nat.pow 256 width * 256 := rfl
      rw [toNat_concat, hpow]
      omega

theorem length_le_iff {width : Nat} {b : Octets} (hb : b.head? ≠ some 0) :
    b.length ≤ width ↔ toNat b < Nat.pow 256 width := by
  refine ⟨toNat_lt, fun h ↦ Nat.not_lt.1 fun hl ↦ ?_⟩
  have hle := pow_le_toNat hb (show b.length = b.length - 1 + 1 by omega)
  have hpow : Nat.pow 256 width ≤ Nat.pow 256 (b.length - 1) :=
    Nat.pow_le_pow_right (show 0 < 256 by decide) (by omega)
  exact absurd h (Nat.not_lt.2 (Nat.le_trans hpow hle))

theorem toNat_zeros_append (zeros : Nat) (b : Octets) :
    toNat (List.replicate zeros 0 ++ b) = toNat b := by
  induction zeros with
  | zero => rfl
  | succ zeros ih => exact ih

theorem trimZeros_zeros_append (zeros : Nat) (b : Octets) :
    trimZeros (List.replicate zeros 0 ++ b) = trimZeros b := by
  induction zeros with
  | zero => rfl
  | succ zeros ih => exact ih

theorem trimZeros_eq_self {b : Octets} (h : b.head? ≠ some 0) : b.trimZeros = b := by
  cases b with
  | nil => rfl
  | cons x b =>
    have hx : x ≠ 0 := by simpa using h
    simp [trimZeros, hx]

theorem trimZeros_ofNat_toNat {width : Nat} {b : Octets} (h : b.length ≤ width)
    (hb : b.head? ≠ some 0) : (ofNat width (toNat b)).trimZeros = b := by
  have hl : (List.replicate (width - b.length) 0 ++ b).length = width := by
    simp only [List.length_append, List.length_replicate]
    omega
  have hpad := ofNat_toNat hl
  rw [toNat_zeros_append] at hpad
  rw [hpad, trimZeros_zeros_append, trimZeros_eq_self hb]

end Octets

namespace Bignum

theorem ofOctets_magnitude (b : Bignum) : ofOctets b.negative b.magnitude = b := by
  cases b
  simp only [ofOctets, mk.injEq, true_and]
  exact Octets.trimZeros_eq_self ‹_›

theorem toNat_word {b : Bignum} {n : UInt64} (h : b.word? = some n) :
    n.toNat = b.magnitude.toNat := by
  unfold word? at h
  split at h <;> cases h
  exact UInt64.toNat_ofNat_of_lt' (Octets.toNat_lt ‹_›)

theorem ofOctets_word {b : Bignum} {n : UInt64} (h : b.word? = some n) :
    ofOctets b.negative (Octets.ofNat 8 n.toNat) = b := by
  rw [toNat_word h]
  have hl : b.magnitude.length ≤ 8 := by
    unfold word? at h
    split at h <;> first | assumption | cases h
  cases b
  simp only [ofOctets, mk.injEq, true_and]
  exact Octets.trimZeros_ofNat_toNat hl ‹_›

end Bignum
end Cbor
