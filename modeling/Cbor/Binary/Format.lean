namespace Cbor.Binary

structure Format where
  exponentBits : Nat
  fractionBits : Nat

def half : Format := ⟨5, 10⟩

def single : Format := ⟨8, 23⟩

def double : Format := ⟨11, 52⟩

/-- A positive number `m * 2 ^ q` as numerator and denominator. -/
def ratio (m : Nat) (q : Int) : Nat × Nat := (m <<< q.toNat, 1 <<< (-q).toNat)

/-- The integer nearest to `num / den`, a half going to the even neighbour. -/
def roundEven (num den : Nat) : Nat :=
  let n := num / den
  match compare (2 * (num % den)) den with
  | .lt => n
  | .eq => n + n % 2
  | .gt => n + 1

/-- The exponent of the greatest power of two that is at most `num / den`. -/
def log2Ratio (num den : Nat) : Int :=
  let d : Int := num.log2 - den.log2
  if den <<< d.toNat ≤ num <<< (-d).toNat then d else d - 1

namespace Format

variable (f : Format)

def bias : Nat := (1 <<< (f.exponentBits - 1)) - 1

def leastExponent : Int := 1 - f.bias - f.fractionBits

def signBit : Nat := 1 <<< (f.exponentBits + f.fractionBits)

def infinity : Nat := ((1 <<< f.exponentBits) - 1) <<< f.fractionBits

def quietBit : Nat := 1 <<< (f.fractionBits - 1)

def magnitude (bits : Nat) : Nat := bits % f.signBit

def isNegative (bits : Nat) : Bool := f.signBit ≤ bits

def isNaN (bits : Nat) : Bool := f.infinity < f.magnitude bits

def isFinite (bits : Nat) : Bool := f.magnitude bits < f.infinity

def significand (bits : Nat) : Nat :=
  let m := f.magnitude bits
  let hidden := 1 <<< f.fractionBits
  if m < hidden then m else m % hidden + hidden

def exponent (bits : Nat) : Int :=
  let e := f.magnitude bits >>> f.fractionBits
  max 1 e - 1 + f.leastExponent

def fraction (bits : Nat) : Nat × Nat := ratio (f.significand bits) (f.exponent bits)

def nearest (num den : Nat) : Nat :=
  if num = 0 then 0
  else
    let place := max (log2Ratio num den - f.fractionBits) f.leastExponent
    let n := roundEven (num <<< (-place).toNat) (den <<< place.toNat)
    min f.infinity (((place - f.leastExponent).toNat <<< f.fractionBits) + n)

end Format

/-- The payload of a NaN, cut or filled at its low end, with the quiet bit set. -/
def quietPayload (src dst : Format) (payload : Nat) : Nat :=
  let p := (payload <<< (dst.fractionBits - src.fractionBits)) >>>
    (src.fractionBits - dst.fractionBits)
  if p < dst.quietBit then p + dst.quietBit else p

def convert (src dst : Format) (bits : Nat) : Nat :=
  let m := src.magnitude bits
  let r :=
    if src.infinity < m then dst.infinity + quietPayload src dst (m - src.infinity)
    else if m = src.infinity then dst.infinity
    else dst.nearest (src.fraction m).1 (src.fraction m).2
  if src.isNegative bits then dst.signBit + r else r

def widenHalf (bits : UInt16) : UInt64 := .ofNat (convert half double bits.toNat)

def widenSingle (bits : UInt32) : UInt64 := .ofNat (convert single double bits.toNat)

def halfToSingle (bits : UInt16) : UInt32 := .ofNat (convert half single bits.toNat)

def narrowSingle (bits : UInt64) : UInt32 := .ofNat (convert double single bits.toNat)

/-- A number loses its low 32 bits first and is then rounded; a NaN is not a number. -/
def narrowHalf (bits : UInt64) : UInt16 :=
  let n := bits.toNat
  .ofNat (convert double half (if double.isNaN n then n else (n >>> 32) <<< 32))

end Cbor.Binary
