import Cbor.Fault

namespace Cbor.Diagnostic

inductive Indent where
  | none
  | spaces (count : UInt8)
  | tab
  deriving DecidableEq, Repr

structure Style where
  indent : Indent := .none
  space : Bool := true
  /-- A set of group sizes 1, 2, 4, .. 32, one bit each; a space follows each full group. -/
  byteSpace : UInt8 := 0
  /-- Byte strings are split into literals of this many octets. -/
  byteWrap : Option UInt16 := Option.none
  deriving DecidableEq, Repr, Inhabited

def Style.check (s : Style) : Except Fault Unit := do
  if let .spaces n := s.indent then
    if n < 1 ∨ 16 < n then throw (.invalidOption "indent")
  if 63 < s.byteSpace then throw (.invalidOption "byte_space")
  if let some w := s.byteWrap then
    if w < 1 ∨ 1024 < w then throw (.invalidOption "byte_wrap")

end Cbor.Diagnostic
