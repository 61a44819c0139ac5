import Cbor.Item.View
import Cbor.Json.Writer
import Cbor.Octets.Base64Url
import Cbor.Octets.Hex

namespace Cbor

mutual

def Json.toItem : Json → Item
  | .null => .null
  | .bool b => .bool b
  | .number (.int n) => .ofInt n
  | .number (.double bits) => .float64 bits
  | .string s => .string (Utf8.encode s.toList)
  | .array items => .array (Json.toItems items)
  | .object members => .map (Json.toEntries members)

def Json.toItems : List Json → List Item
  | [] => []
  | j :: js => Json.toItem j :: Json.toItems js

def Json.toEntries : List (String × Json) → List (Item × Item)
  | [] => []
  | (key, j) :: js => (.string (Utf8.encode key.toList), Json.toItem j) :: Json.toEntries js

end

namespace Json

/-- An integer, as a number if 64 bits can hold it and else as its numeral. -/
def ofInt (n : Int) : Json :=
  if -9223372036854775808 ≤ n ∧ n < 18446744073709551616 then int n else ofChars (Numeral.ofInt n)

def hexNumeral (b : Octets) : List Char := '0' :: 'x' :: b.hex

/-- Beyond 128 bits the magnitude is given in hexadecimal, after a tilde for a negative number. -/
def ofBignum (b : Bignum) : Json :=
  match b.toInt128? with
  | some n => ofInt n
  | none => ofChars ((if b.negative then ['~'] else []) ++ hexNumeral b.magnitude)

def mantissa (b : Bignum) : List Char :=
  match b.toInt128? with
  | some n => Numeral.ofInt n
  | none => hexNumeral b.magnitude

def ofFraction (base : Char) (f : Fraction) : Json :=
  ofChars (mantissa f.mantissa ++ base :: Numeral.ofInt f.exponent.toInt)

def ofOctets (b : Octets) : Json := ofChars (Octets.Base64Url.encode b)

def ofDouble (bits : UInt64) : Json :=
  if Binary.double.isFinite bits.toNat then number (.double bits) else null

def keyText : Json → String
  | string s => s
  | j => String.ofList j.compact

end Json

mutual

def Item.toJson : Item → Json
  | .unsigned n => .ofInt n.toNat
  | .negative n => .ofInt (-1 - n.toNat)
  | .bytes b => .ofOctets b
  | .text b => .ofChars (Utf8.decodeLossy b)
  | .string b =>
    match Utf8.decode? b with
    | some s => .ofChars s
    | none => .ofOctets b
  | .array items => .array (Item.toJsons items)
  | .map entries => .ofMembers (Item.toMembers entries)
  | .tag _ content => Item.toJson content
  | .bool b => .bool b
  | .null | .undefined | .custom .. => .null
  | .float16 bits => .ofDouble (Binary.widenHalf bits)
  | .float32 bits => .ofDouble (Binary.widenSingle bits)
  | .float64 bits => .ofDouble bits
  | .dateTime t => .ofChars t.display
  | .bignum b => .ofBignum b
  | .decimal f => .ofFraction 'e' f
  | .bigFloat f => .ofFraction 'p' f
  | .uri u => .ofChars (Utf8.decodeLossy u.octets)
  | .shareable _ content => Item.toJson content
  | .params _ content => Item.toJson content

def Item.toJsons : List Item → List Json
  | [] => []
  | i :: is => Item.toJson i :: Item.toJsons is

def Item.toMembers : List (Item × Item) → List (String × Json)
  | [] => []
  | (k, i) :: is => ((Item.toJson k).keyText, Item.toJson i) :: Item.toMembers is

end

end Cbor
