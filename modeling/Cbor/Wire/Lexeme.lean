import Cbor.Wire.Head

namespace Cbor

inductive Lexeme where
  | unsigned (n : UInt64)
  | negative (n : UInt64)
  | bytes (b : Octets)
  | text (b : Octets)
  | bytesStart
  | textStart
  /-- Without a count the length is indefinite. -/
  | array (count : Option UInt64)
  | map (count : Option UInt64)
  | tag (number : UInt64)
  | simple (n : UInt8)
  | bool (b : Bool)
  | null
  | undefined
  | float16 (bits : UInt16)
  | float32 (bits : UInt32)
  | float64 (bits : UInt64)
  | stop
  deriving DecidableEq, Repr

/-- What the front of the input holds: a lexeme and the rest, the start of a head, or a head with
only a part of its string. -/
inductive Reading where
  | ready (lexeme : Lexeme) (rest : Octets)
  | needHeader
  | needContent
  deriving DecidableEq, Repr

namespace Lexeme

def checkSize (maxSize n : Nat) : Except Fault Unit :=
  if n ≤ maxSize then .ok () else .error .unsupportedSize

def indefinite? : (major : Nat) → Option Lexeme
  | 2 => some bytesStart
  | 3 => some textStart
  | 4 => some (array none)
  | 5 => some (map none)
  | 7 => some stop
  | _ => none

/-- Major type 7. The simple values below 32 have one form only, in the initial octet. -/
def ofSimple (minor : Nat) (n : UInt64) : Except Fault Lexeme :=
  match minor with
  | 20 => .ok (bool false)
  | 21 => .ok (bool true)
  | 22 => .ok null
  | 23 => .ok undefined
  | 24 => if n < 32 then .error .malformedData else .ok (simple n.toUInt8)
  | 25 => .ok (float16 n.toUInt16)
  | 26 => .ok (float32 n.toUInt32)
  | 27 => .ok (float64 n)
  | _ => .ok (simple n.toUInt8)

/-- The size is checked before the payload is waited for. -/
def readString (maxSize : Nat) (make : Octets → Lexeme) (n : UInt64) (b : Octets) :
    Except Fault Reading := do
  checkSize maxSize n.toNat
  let (payload, rest) := b.splitAt n.toNat
  if payload.length = n.toNat then return .ready (make payload) rest
  return .needContent

def ofHead (maxSize major minor : Nat) (n : UInt64) (b : Octets) : Except Fault Reading :=
  match major with
  | 0 => .ok (.ready (unsigned n) b)
  | 1 => .ok (.ready (negative n) b)
  | 2 => readString maxSize bytes n b
  | 3 => readString maxSize text n b
  | 4 => do
    checkSize maxSize n.toNat
    return .ready (array (some n)) b
  | 5 => do
    checkSize maxSize n.toNat
    return .ready (map (some n)) b
  | 6 => .ok (.ready (tag n) b)
  | _ => do
    let lexeme ← ofSimple minor n
    return .ready lexeme b

def read (maxSize : Nat) : Octets → Except Fault Reading
  | [] => .ok .needHeader
  | x :: b =>
    let major := x.toNat / 32
    let minor := x.toNat % 32
    if minor = 31 then
      match indefinite? major with
      | some lexeme => .ok (.ready lexeme b)
      | none => .error .malformedData
    else
      match Head.argumentWidth? minor with
      | none => .error .malformedData
      | some width =>
        match Head.argument? minor width b with
        | none => .ok .needHeader
        | some (n, rest) => ofHead maxSize major minor n rest

theorem length_le_of_readString {maxSize : Nat} {make : Octets → Lexeme} {n : UInt64}
    {b rest : Octets} {l : Lexeme} (h : readString maxSize make n b = .ok (.ready l rest)) :
    rest.length ≤ b.length := by
  simp only [readString, checkSize, List.splitAt_eq, bind, Except.bind, pure, Except.pure] at h
  split at h
  · cases h
  · split at h
    · cases h
      simp
    · cases h

theorem length_le_of_ofHead {maxSize major minor : Nat} {n : UInt64} {b rest : Octets} {l : Lexeme}
    (h : ofHead maxSize major minor n b = .ok (.ready l rest)) : rest.length ≤ b.length := by
  unfold ofHead at h
  split at h
  case h_3 | h_4 => exact length_le_of_readString h
  case h_5 | h_6 =>
    simp only [checkSize, bind, Except.bind, pure, Except.pure] at h
    split at h <;> cases h
    exact Nat.le_refl _
  case h_8 =>
    simp only [bind, Except.bind, pure, Except.pure] at h
    split at h <;> cases h
    exact Nat.le_refl _
  all_goals
    cases h
    exact Nat.le_refl _

theorem length_lt_of_read {maxSize : Nat} {b rest : Octets} {l : Lexeme}
    (h : read maxSize b = .ok (.ready l rest)) : rest.length < b.length := by
  unfold read at h
  split at h
  · cases h
  · dsimp only at h
    split at h
    · split at h <;> cases h
      simp
    · split at h
      · cases h
      · split at h
        · cases h
        · rename_i ha
          have := length_le_of_ofHead h
          have := Head.length_le_of_argument? ha
          simp only [List.length_cons]
          omega

end Lexeme
end Cbor
