import Cbor.Octets.Basic

namespace Cbor.Octets

/-- All of `data` from `start` on, or at most `length` octets of it. -/
def window (data : Octets) (start : Nat) (length : Option Nat) : Octets :=
  match length with
  | none => data.drop start
  | some n => (data.drop start).take n

/-- The position `offset` in a string of `size` octets, counted from the end if it is negative. -/
def sliceStart (size offset : Int64) : Int64 :=
  if offset < 0 then max (size + offset) 0 else min offset size

/-- The sum, or the border of the 64-bit integers that it is beyond. -/
def saturatedSum (m n : Int64) : Int64 := .ofIntClamp (m.toInt + n.toInt)

/-- Where a slice ends. Without a length that is the end of the string; a negative length leaves so
many octets before it, unless they would be before `start`. -/
def sliceStop (size start : Int64) : Option Int64 → Int64
  | none => size
  | some n => if n < 0 then max (size + n) start else min (saturatedSum start n) size

def slice (data : Octets) (offset : Int64) (length : Option Int64) : Octets :=
  let size := Int64.ofNat data.length
  let start := sliceStart size offset
  let stop := sliceStop size start length
  data.extract start.toNatClampNeg stop.toNatClampNeg

end Cbor.Octets
