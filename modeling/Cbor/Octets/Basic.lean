namespace Cbor

abbrev Octets := List UInt8

namespace Octets

def toNat (b : Octets) : Nat := b.foldl (fun n x ↦ n * 256 + x.toNat) 0

def ofNat : (width : Nat) → (n : Nat) → Octets
  | 0, _ => []
  | width + 1, n => ofNat width (n / 256) ++ [UInt8.ofNat n]

def trimZeros (b : Octets) : Octets := b.dropWhile (· == 0)

/-- Bytewise order, in which a proper beginning comes first. -/
def ble : Octets → Octets → Bool
  | [], _ => true
  | _ :: _, [] => false
  | x :: b, y :: c => x < y || (x == y && ble b c)

@[simp] theorem length_ofNat (width n : Nat) : (ofNat width n).length = width := by
  induction width generalizing n with
  | zero => rfl
  | succ width ih => simp [ofNat, ih]

theorem toNat_concat (b : Octets) (x : UInt8) : toNat (b ++ [x]) = toNat b * 256 + x.toNat := by
  simp [toNat]

theorem toNat_ofNat {width n : Nat} (h : n < Nat.pow 256 width) :
    toNat (ofNat width n) = n := by
  induction width generalizing n with
  | zero => exact (Nat.lt_one_iff.1 h).symm
  | succ width ih =>
    have hd : n / 256 < Nat.pow 256 width := (Nat.div_lt_iff_lt_mul (by decide)).2 h
    rw [ofNat, toNat_concat, ih hd, UInt8.toNat_ofNat']
    omega

end Octets
end Cbor
