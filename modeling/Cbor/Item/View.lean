import Cbor.Binary.Format
import Cbor.Item.Basic

namespace Cbor.Item

def typeName : Item → String
  | unsigned _ => "Unsigned Integer"
  | negative _ => "Negative Integer"
  | bytes _ => "Byte String"
  | text _ => "Text String"
  | string _ => "String"
  | array _ => "Array"
  | map _ => "Map"
  | tag .. => "Tag"
  | bool _ => "Boolean"
  | null => "Null"
  | undefined => "Undefined"
  | float16 _ => "Float16"
  | float32 _ => "Float32"
  | float64 _ => "Float64"
  | dateTime _ => "DateTime"
  | bignum _ => "BigNum"
  | decimal _ => "Decimal"
  | bigFloat _ => "BigFloat"
  | uri _ => "URI"
  | shareable .. => "Shareable"
  | custom .. => "Custom"
  | params .. => "Params"

def isNull : Item → Bool
  | null => true
  | _ => false

def word? : Item → Option UInt64
  | unsigned n => some n
  | _ => none

def int64? : Item → Option Int64
  | unsigned n => if n.toNat < 9223372036854775808 then some (.ofNat n.toNat) else none
  | negative n => if n.toNat < 9223372036854775808 then some (.ofInt (-1 - n.toNat)) else none
  | _ => none

def double? : Item → Option UInt64
  | float16 bits => some (Binary.widenHalf bits)
  | float32 bits => some (Binary.widenSingle bits)
  | float64 bits => some bits
  | _ => none

def bool? : Item → Option Bool
  | bool b => some b
  | _ => none

def utf8? : Item → Option Octets
  | text b | string b => if Utf8.isValid b then some b else none
  | uri u => some u.octets
  | _ => none

def octets? : Item → Option Octets
  | bytes b | string b => some b
  | _ => none

def items? : Item → Option (List Item)
  | array items => some items
  | _ => none

def entries? : Item → Option (List (Item × Item))
  | map entries => some entries
  | _ => none

def get? (i : Item) (key : Octets) : Option Item := do
  let entries ← i.entries?
  let (_, value) ← entries.find? fun (k, _) ↦ k.utf8? = some key
  return value

mutual

/-- What a copy costs: one for each node, and the octets of strings and magnitudes. A shareable
node is copied as one, whatever it holds. -/
def footprint : Item → Nat
  | bytes b | text b | string b => 1 + b.length
  | uri u => 1 + u.octets.length
  | bignum b => 1 + b.magnitude.length
  | decimal f | bigFloat f => 1 + f.mantissa.magnitude.length
  | array items => 1 + footprintAll items
  | map entries => 1 + footprintEntries entries
  | tag _ content => 1 + footprint content
  | _ => 1

def footprintAll : List Item → Nat
  | [] => 0
  | i :: is => footprint i + footprintAll is

def footprintEntries : List (Item × Item) → Nat
  | [] => 0
  | (k, i) :: is => footprint k + footprint i + footprintEntries is

end

end Cbor.Item
