import Cbor.Bignum
import Cbor.Calendar.Moment
import Cbor.Encoder.Options
import Cbor.Text.Utf8

namespace Cbor

structure Uri where
  octets : Octets
  valid : Utf8.isValid octets = true
  deriving DecidableEq, Repr

def Uri.ofOctets? (b : Octets) : Option Uri :=
  if h : Utf8.isValid b = true then some ⟨b, h⟩ else none

/-- Cells are named by numbers: two shareable nodes are the same cell if they have the same number.
A custom node is named by its hook, whose result is what is written for it. -/
inductive Item where
  | unsigned (n : UInt64)
  /-- The integer `-1 - n`. -/
  | negative (n : UInt64)
  | bytes (b : Octets)
  | text (b : Octets)
  /-- A native string, which the flags make a byte string or a text string. -/
  | string (b : Octets)
  | array (items : List Item)
  | map (entries : List (Item × Item))
  | tag (number : UInt64) (content : Item)
  | bool (b : Bool)
  | null
  | undefined
  | float16 (bits : UInt16)
  | float32 (bits : UInt32)
  /-- The native float, whose width on the wire the flags choose. -/
  | float64 (bits : UInt64)
  | dateTime (t : Moment)
  | bignum (b : Bignum)
  | decimal (f : Fraction)
  | bigFloat (f : Fraction)
  | uri (u : Uri)
  | shareable (cell : Nat) (content : Item)
  | custom (hook : Nat) (result : Except Fault Item)
  | params (overrides : Encoder.Overrides) (content : Item)
  deriving Repr

namespace Item

instance : Inhabited Item := ⟨null⟩

def ofNat (n : Nat) : Item := unsigned (.ofNat n)

/-- The plain integer of a value between -2⁶⁴ and 2⁶⁴ - 1. -/
def ofInt : Int → Item
  | .ofNat n => unsigned (.ofNat n)
  | .negSucc n => negative (.ofNat n)

def ofText (s : List Char) : Item := text (Utf8.encode s)

def ofBignum? (b : Bignum) : Option Item :=
  b.word?.map fun n ↦ if b.negative then negative n else unsigned n

def isShareable : Item → Bool
  | shareable .. => true
  | _ => false

end Item
end Cbor
