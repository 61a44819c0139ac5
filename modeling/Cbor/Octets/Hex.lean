import Cbor.Octets.Basic

namespace Cbor.Octets

def hexPair (x : UInt8) : List Char :=
  [Nat.digitChar (x.toNat / 16), Nat.digitChar (x.toNat % 16)]

def hex (b : Octets) : List Char := b.flatMap hexPair

def hexDigit? (c : Char) : Option Nat :=
  if '0' ≤ c ∧ c ≤ '9' then some (c.toNat - 48)
  else if 'a' ≤ c ∧ c ≤ 'f' then some (c.toNat - 87)
  else if 'A' ≤ c ∧ c ≤ 'F' then some (c.toNat - 55)
  else none

def ofHexAux (done : Array UInt8) : List Char → Option (Array UInt8)
  | [] => some done
  | [_] => none
  | c :: d :: s => do
    let high ← hexDigit? c
    let low ← hexDigit? d
    ofHexAux (done.push (UInt8.ofNat (high * 16 + low))) s

def ofHex? (s : List Char) : Option Octets := (ofHexAux #[] s).map Array.toList

theorem hexDigit?_digitChar : ∀ n < 16, hexDigit? (Nat.digitChar n) = some n := by decide

theorem ofHexAux_hex (done : Array UInt8) (b : Octets) :
    ofHexAux done (hex b) = some (done ++ b.toArray) := by
  induction b generalizing done with
  | nil => simp [hex, ofHexAux]
  | cons x b ih =>
    have hx := x.toNat_lt
    have hhigh := hexDigit?_digitChar (x.toNat / 16) (by omega)
    have hlow := hexDigit?_digitChar (x.toNat % 16) (by omega)
    have hpair : x.toNat / 16 * 16 + x.toNat % 16 = x.toNat := Nat.div_add_mod' ..
    have hcons : hex (x :: b) = Nat.digitChar (x.toNat / 16) :: Nat.digitChar (x.toNat % 16) ::
        hex b := rfl
    simp only [hcons, ofHexAux, hhigh, hlow, Option.bind_eq_bind, Option.bind_some, hpair,
      UInt8.ofNat_toNat, ih]
    simp

theorem ofHex?_hex (b : Octets) : ofHex? (hex b) = some b := by
  simp [ofHex?, ofHexAux_hex]

theorem hex_inj {b c : Octets} : hex b = hex c ↔ b = c := by
  refine ⟨fun h ↦ Option.some.inj ?_, congrArg hex⟩
  rw [← ofHex?_hex b, h, ofHex?_hex]

end Cbor.Octets
