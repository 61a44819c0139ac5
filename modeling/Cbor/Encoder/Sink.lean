import Cbor.Binary.Format
import Cbor.Encoder.Options
import Cbor.Reference
import Cbor.Wire.Head

namespace Cbor.Encoder

structure Sink where
  octets : Array UInt8 := #[]
  depth : Nat := 0
  strings : List StringTable := []
  cells : CellTable := #[]
  deriving Repr

abbrev Emit := ExceptT Fault (StateM Sink)

namespace Emit

def put (b : Octets) : Emit Unit := modify fun s ↦ { s with octets := s.octets ++ b }

def head (major : Nat) (n : UInt64) : Emit Unit := put (Head.write major n)

def enter (maxDepth : Nat) : Emit Unit := do
  if (← get).depth < maxDepth then modify fun s ↦ { s with depth := s.depth + 1 }
  else throw .depth

def leave : Emit Unit := modify fun s ↦ { s with depth := s.depth - 1 }

def findString (isText : Bool) (b : Octets) : Emit (Option Nat) :=
  modifyGet fun s ↦
    match s.strings with
    | [] => (none, s)
    | inner :: outer =>
      let (found, inner) := inner.lookup isText b
      (found, { s with strings := inner :: outer })

def string (isText : Bool) (b : Octets) : Emit Unit := do
  match ← findString isText b with
  | some index =>
    head 6 Tag.stringRef
    head 0 (.ofNat index)
  | none =>
    head (if isText then 3 else 2) (.ofNat b.length)
    put b

def text (o : Options) (b : Octets) : Emit Unit := do
  if !o.flags.contains .uncheckedText && !Utf8.isValid b then throw .utf8
  string true b

def integer (n : Int) : Emit Unit :=
  match n with
  | .ofNat n => head 0 (.ofNat n)
  | .negSucc n => head 1 (.ofNat n)

def float16 (bits : UInt16) : Emit Unit := put (0xF9 :: Octets.ofNat 2 bits.toNat)

def float32 (bits : UInt32) : Emit Unit := put (0xFA :: Octets.ofNat 4 bits.toNat)

def float64 (bits : UInt64) : Emit Unit := put (0xFB :: Octets.ofNat 8 bits.toNat)

/-- The narrowest float with the same value; a NaN loses its payload. -/
def shortestFloat (bits : UInt64) : Emit Unit :=
  let half := Binary.narrowHalf bits
  let single := Binary.narrowSingle bits
  if Binary.double.isNaN bits.toNat then float16 0x7E00
  else if Binary.widenHalf half = bits then float16 half
  else if Binary.widenSingle single = bits then float32 single
  else float64 bits

def nativeFloat (o : Options) (bits : UInt64) : Emit Unit :=
  let narrow := o.flags.contains .float16
  let middle := o.flags.contains .float32
  if o.flags.contains .cde || (narrow && middle) then shortestFloat bits
  else if narrow then float16 (Binary.narrowHalf bits)
  else if middle then float32 (Binary.narrowSingle bits)
  else float64 bits

end Emit
end Cbor.Encoder
