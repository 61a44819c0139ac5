import Cbor.Fault
import Cbor.Octets.Basic

namespace Cbor.Head

def initial (major minor : Nat) : UInt8 := .ofNat (major * 32 + minor)

def write (major : Nat) (n : UInt64) : Octets :=
  let n := n.toNat
  if n < 24 then [initial major n]
  else if n < 256 then initial major 24 :: Octets.ofNat 1 n
  else if n < 65536 then initial major 25 :: Octets.ofNat 2 n
  else if n < 4294967296 then initial major 26 :: Octets.ofNat 4 n
  else initial major 27 :: Octets.ofNat 8 n

def argumentWidth? (minor : Nat) : Option Nat :=
  match minor with
  | 24 => some 1
  | 25 => some 2
  | 26 => some 4
  | 27 => some 8
  | _ => if minor < 24 then some 0 else none

def argument? (minor width : Nat) (b : Octets) : Option (UInt64 × Octets) :=
  if minor < 24 then some (.ofNat minor, b)
  else
    let (digits, rest) := b.splitAt width
    if digits.length = width then some (.ofNat (Octets.toNat digits), rest) else none

theorem length_le_of_argument? {minor width : Nat} {b rest : Octets} {n : UInt64}
    (h : argument? minor width b = some (n, rest)) : rest.length ≤ b.length := by
  unfold argument? at h
  split at h
  · simp_all
  · simp only [List.splitAt_eq, Option.ite_none_right_eq_some, Option.some.injEq,
      Prod.mk.injEq] at h
    obtain ⟨_, _, rfl⟩ := h
    simp

end Cbor.Head
