import Cbor.Binary.Shortest
import Cbor.Diagnostic.Style
import Cbor.Octets.Hex
import Cbor.Text.Utf8

namespace Cbor.Diagnostic

def quote : Char := '\x27'

def Indent.unit? : Indent → Option (Char × Nat)
  | .none => Option.none
  | .spaces n => some (' ', n.toNat)
  | .tab => some ('\t', 1)

namespace Style

variable (s : Style)

def lineBreak (width : Nat) (space : Bool) : List Char :=
  match s.indent.unit? with
  | none => if space && s.space then [' '] else []
  | some (c, _) => '\n' :: List.replicate width c

/-- The spaces after `offset` octets: one for each group size that divides it. -/
def groupSpaces (offset : Nat) : List Char :=
  (List.range 6).filterMap fun shift ↦
    if s.byteSpace.toNat.testBit shift ∧ offset % (1 <<< shift) = 0 then some ' ' else none

/-- What stands between the octet before and the one at `offset` in its literal, and the offset that
counts from then on. -/
def byteGap (width offset : Nat) : List Char × Nat :=
  if s.byteWrap.any (·.toNat = offset) then
    (quote :: s.lineBreak width true ++ ['h', quote], 0)
  else if offset = 0 then ([], 0)
  else (s.groupSpaces offset, offset)

def byteDigits (width : Nat) (done : Array Char) (offset : Nat) : Octets → Array Char
  | [] => done
  | x :: b =>
    let (gap, offset) := s.byteGap width offset
    byteDigits width (done ++ gap ++ Octets.hexPair x) (offset + 1) b

def bytesLiteral (width : Nat) (b : Octets) : List Char :=
  ((s.byteDigits width #['h', quote] 0 b).push quote).toList

end Style

/-- Code points that show nothing or change the direction of the text around them. -/
def isInvisible (c : Char) : Bool :=
  let n := c.toNat
  (0x80 ≤ n && n ≤ 0x9F) || n = 0x61C || n = 0x200E || n = 0x200F || (0x202A ≤ n && n ≤ 0x202E) ||
    n = 0x2028 || n = 0x2029 || (0x2066 ≤ n && n ≤ 0x2069)

def isControl (c : Char) : Bool := c.toNat < 0x20 || c.toNat = 0x7F

def escape? (c : Char) : Option Char :=
  match c.toNat with
  | 0x5C => some c
  | 0x22 => some c
  | 0x09 => some 't'
  | 0x0D => some 'r'
  | 0x0C => some 'f'
  | 0x0A => some 'n'
  | 0x08 => some 'b'
  | _ => none

def unicodeEscape (c : Char) : List Char :=
  '\\' :: 'u' :: (Nat.toDigits 16 c.toNat).leftpad 4 '0'

/-- What changes from a text literal to a byte literal or back, if anything does. -/
def switch (inText toText : Bool) : List Char :=
  match inText, toText with
  | true, false => ['"', ' ', 'h', quote]
  | false, true => [quote, ' ', '"']
  | _, _ => []

/-- The form of a character, and whether it stands in a text literal. A control character is given
in hexadecimal where another one follows it, and behind hexadecimal digits. -/
def charForm (inText nextIsControl : Bool) (c : Char) : Bool × List Char :=
  if !inText && isControl c then (false, Octets.hexPair (.ofNat c.toNat))
  else
    match escape? c with
    | some e => (true, ['\\', e])
    | none =>
      if isControl c then
        if nextIsControl then (false, Octets.hexPair (.ofNat c.toNat)) else (true, unicodeEscape c)
      else if isInvisible c then (true, unicodeEscape c)
      else (true, [c])

def startsWithControl : List Utf8.Piece → Bool
  | .char c :: _ => isControl c
  | _ => false

def textPieces (done : Array Char) (inText : Bool) : List Utf8.Piece → Array Char
  | [] => done.push (if inText then '"' else quote)
  | .char c :: rest =>
    let (toText, form) := charForm inText (startsWithControl rest) c
    textPieces (done ++ switch inText toText ++ form) toText rest
  | .junk b :: rest => textPieces (done ++ switch inText false ++ Octets.hex b) false rest

def textLiteral (b : Octets) : List Char := (textPieces #['"'] true (Utf8.pieces b)).toList

/-- Floats have a point and a digit after it in any case. -/
def floatLayout : Binary.Layout := ⟨-4, 15, true, .up⟩

def floatLiteral (f : Binary.Format) (bits : Nat) (width : Char) : List Char :=
  let text :=
    if f.isNaN bits then ['N', 'a', 'N']
    else if f.isFinite bits then floatLayout.finite f bits
    else if f.isNegative bits then "-Infinity".toList
    else "Infinity".toList
  text ++ ['_', width]

end Cbor.Diagnostic
