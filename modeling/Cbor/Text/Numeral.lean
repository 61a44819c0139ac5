namespace Cbor.Numeral

def ofNat (n : Nat) : List Char := Nat.toDigits 10 n

def ofInt : Int → List Char
  | .ofNat n => ofNat n
  | .negSucc n => '-' :: ofNat (n + 1)

def padded (width n : Nat) : List Char := (ofNat n).leftpad width '0'

/-- The number that a non-empty text of digits spells, zeros in front allowed. -/
def nat? (s : List Char) : Option Nat :=
  if s ≠ [] ∧ s.all Char.isDigit then some (Nat.ofDigitChars 10 s 0) else none

/-- As `nat?`, but a zero in front only as the number zero itself. -/
def canonicalNat? : List Char → Option Nat
  | ['0'] => some 0
  | '0' :: _ => none
  | s => nat? s

/-- The one numeral of each integer: no plus sign, no zero in front, no minus zero. -/
def canonicalInt? : List Char → Option Int
  | '-' :: s =>
    match canonicalNat? s with
    | some (n + 1) => some (.negSucc n)
    | _ => none
  | s => (canonicalNat? s).map .ofNat

end Cbor.Numeral
