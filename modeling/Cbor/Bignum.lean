import Cbor.Octets.Basic

namespace Cbor

structure Bignum where
  negative : Bool := false
  magnitude : Octets := []
  canonical : magnitude.head? ≠ some 0 := by decide
  deriving DecidableEq, Repr

namespace Bignum

instance : Inhabited Bignum := ⟨{}⟩

theorem head?_trimZeros (b : Octets) : b.trimZeros.head? ≠ some 0 := by
  have h := List.head?_dropWhile_not (· == 0) b
  intro hz
  rw [Octets.trimZeros] at hz
  simp [hz] at h

def ofOctets (negative : Bool) (b : Octets) : Bignum :=
  ⟨negative, b.trimZeros, head?_trimZeros b⟩

def ofInt : Int → Bignum
  | .ofNat n => ofOctets false (Octets.ofNat (n.log2 / 8 + 1) n)
  | .negSucc n => ofOctets true (Octets.ofNat (n.log2 / 8 + 1) n)

def toInt (b : Bignum) : Int :=
  if b.negative then -1 - (b.magnitude.toNat : Int) else b.magnitude.toNat

/-- The bignum of a two's complement word, of whose magnitude all sixteen octets are spelled out. -/
def ofSigned (n : BitVec 128) : Bignum :=
  if n.slt 0 then ofOctets true (Octets.ofNat 16 (-1 - n).toNat)
  else ofOctets false (Octets.ofNat 16 n.toNat)

/-- The two's complement word of the same value, if there is one. The magnitude is filled up to
sixteen octets, and its highest bit must be free for the sign. -/
def signed? (b : Bignum) : Option (BitVec 128) :=
  if 16 < b.magnitude.length then none
  else
    let filled := List.replicate (16 - b.magnitude.length) 0 ++ b.magnitude
    let m := BitVec.ofNat 128 (Octets.toNat filled)
    if m.msb then none else some (if b.negative then -1 - m else m)

def toInt128? (b : Bignum) : Option Int := b.signed?.map BitVec.toInt

def word? (b : Bignum) : Option UInt64 :=
  if b.magnitude.length ≤ 8 then some (.ofNat b.magnitude.toNat) else none

end Bignum

structure Fraction where
  exponent : Int64
  mantissa : Bignum
  deriving DecidableEq, Repr

end Cbor
