import Cbor.Octets.Basic

namespace Cbor.Utf8

inductive Piece where
  | char (c : Char)
  | junk (octets : Octets)
  deriving DecidableEq, Repr

/-- What has been read of a character: nothing, or its first octets, the bits in them, how many
octets are still due and the range of the next one. -/
inductive Progress where
  | idle
  | within (seen : Octets) (code due : Nat) (low high : UInt8)
  deriving DecidableEq, Repr

def begin (x : UInt8) : Progress × List Piece :=
  if x < 0x80 then (.idle, [.char (Char.ofNat x.toNat)])
  else if x < 0xC2 then (.idle, [.junk [x]])
  else if x < 0xE0 then (.within [x] (x.toNat - 0xC0) 1 0x80 0xBF, [])
  else if x = 0xE0 then (.within [x] 0 2 0xA0 0xBF, [])
  else if x = 0xED then (.within [x] 13 2 0x80 0x9F, [])
  else if x < 0xF0 then (.within [x] (x.toNat - 0xE0) 2 0x80 0xBF, [])
  else if x = 0xF0 then (.within [x] 0 3 0x90 0xBF, [])
  else if x < 0xF4 then (.within [x] (x.toNat - 0xF0) 3 0x80 0xBF, [])
  else if x = 0xF4 then (.within [x] 4 3 0x80 0x8F, [])
  else (.idle, [.junk [x]])

/-- Takes one octet; an octet that cannot continue a character begins the next one. -/
def step : Progress → UInt8 → Progress × List Piece
  | .idle, x => begin x
  | .within seen code due low high, x =>
    if low ≤ x ∧ x ≤ high then
      let code := code * 64 + (x.toNat - 0x80)
      if due ≤ 1 then (.idle, [.char (Char.ofNat code)])
      else (.within (seen ++ [x]) code (due - 1) 0x80 0xBF, [])
    else
      let (next, out) := begin x
      (next, .junk seen :: out)

/-- A character that the end of the text cuts off is junk. -/
def finish : Progress → List Piece
  | .idle => []
  | .within seen .. => [.junk seen]

def piecesAux (p : Progress) (done : Array Piece) : Octets → Array Piece
  | [] => done ++ finish p
  | x :: b =>
    let (p, out) := step p x
    piecesAux p (done ++ out) b

def pieces (b : Octets) : List Piece := (piecesAux .idle #[] b).toList

def Piece.isChar : Piece → Bool
  | .char _ => true
  | .junk _ => false

def isValid (b : Octets) : Bool := (pieces b).all Piece.isChar

def decodeLossy (b : Octets) : List Char :=
  (pieces b).map fun
    | .char c => c
    | .junk _ => '\ufffd'

def decode? (b : Octets) : Option (List Char) :=
  if isValid b then some (decodeLossy b) else none

def encodeChar (c : Char) : Octets :=
  let n := c.toNat
  if n < 0x80 then [UInt8.ofNat n]
  else if n < 0x800 then [UInt8.ofNat (0xC0 + n / 64), UInt8.ofNat (0x80 + n % 64)]
  else if n < 0x10000 then
    [UInt8.ofNat (0xE0 + n / 4096), UInt8.ofNat (0x80 + n / 64 % 64), UInt8.ofNat (0x80 + n % 64)]
  else
    [UInt8.ofNat (0xF0 + n / 262144), UInt8.ofNat (0x80 + n / 4096 % 64),
      UInt8.ofNat (0x80 + n / 64 % 64), UInt8.ofNat (0x80 + n % 64)]

def encode (s : List Char) : Octets := s.flatMap encodeChar

end Cbor.Utf8
