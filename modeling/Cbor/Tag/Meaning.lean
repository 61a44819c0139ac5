import Cbor.Calendar.Rfc3339
import Cbor.Item.View
import Cbor.Tag

namespace Cbor.Tag

def textContent (tag : UInt64) : Item → Except Fault Octets
  | .text b => .ok b
  | _ => .error (.tagType tag)

def orValueFault (tag : UInt64) : Option α → Except Fault α
  | some a => .ok a
  | none => .error (.tagValue tag)

def stampMeaning (content : Item) : Except Fault Moment := do
  orValueFault dateTime (Rfc3339.parse? (← textContent dateTime content))

def epochMeaning : Item → Except Fault Moment
  | .unsigned n => orValueFault epoch (Moment.ofSeconds? n.toNat)
  | .negative n => orValueFault epoch (Moment.ofSeconds? (-1 - n.toNat))
  | .float16 bits => orValueFault epoch (Moment.ofDouble? (Binary.widenHalf bits))
  | .float32 bits => orValueFault epoch (Moment.ofDouble? (Binary.widenSingle bits))
  | .float64 bits => orValueFault epoch (Moment.ofDouble? bits)
  | _ => .error (.tagType epoch)

def bignumMeaning (tag : UInt64) : Item → Except Fault Bignum
  | .bytes b => .ok (.ofOctets (tag = negativeBignum) b)
  | _ => .error (.tagType tag)

def exponentMeaning (tag : UInt64) (i : Item) : Except Fault Int64 :=
  match i with
  | .unsigned _ | .negative _ => orValueFault tag i.int64?
  | _ => .error (.tagType tag)

def mantissaMeaning (tag : UInt64) : Item → Except Fault Bignum
  | .unsigned n => .ok (.ofOctets false (Octets.ofNat 8 n.toNat))
  | .negative n => .ok (.ofOctets true (Octets.ofNat 8 n.toNat))
  | .bignum b => .ok b
  | _ => .error (.tagType tag)

def fractionMeaning (tag : UInt64) : Item → Except Fault Fraction
  | .array [exponent, mantissa] => do
    let exponent ← exponentMeaning tag exponent
    let mantissa ← mantissaMeaning tag mantissa
    return ⟨exponent, mantissa⟩
  | .array _ => .error (.tagValue tag)
  | _ => .error (.tagType tag)

def uriMeaning (content : Item) : Except Fault Uri := do
  orValueFault uri (Uri.ofOctets? (← textContent uri content))

/-- The item for a tag of the groups that are on; `none` for any other tag. -/
def interpret (groups : Groups) (tag : UInt64) (content : Item) : Except Fault (Option Item) :=
  if tag = dateTime ∧ groups.dateTime then some <$> .dateTime <$> stampMeaning content
  else if tag = epoch ∧ groups.dateTime then some <$> .dateTime <$> epochMeaning content
  else if (tag = positiveBignum ∨ tag = negativeBignum) ∧ groups.bignum then
    some <$> .bignum <$> bignumMeaning tag content
  else if tag = decimal ∧ groups.decimal then some <$> .decimal <$> fractionMeaning tag content
  else if tag = bigFloat ∧ groups.decimal then some <$> .bigFloat <$> fractionMeaning tag content
  else if tag = uri ∧ groups.uri then some <$> .uri <$> uriMeaning content
  else .ok none

end Cbor.Tag
