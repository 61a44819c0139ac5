import Cbor.Binary.Format
import Cbor.Json.Basic
import Cbor.Text.Numeral

namespace Cbor.Json

/-- A spelled number. `exponent` is a sign, set for minus, and digits. -/
structure Literal where
  negative : Bool
  whole : List Char
  fraction : List Char
  exponent : Option (Bool × List Char)
  deriving DecidableEq, Repr

/-- Appends digits to `n` while 64 bits can hold the number; the answer has the digits left over. -/
def appendDigits (n : Nat) : List Char → Nat × List Char
  | [] => (n, [])
  | c :: s =>
    let m := n * 10 + (c.toNat - 48)
    if m < UInt64.size then appendDigits m s else (n, c :: s)

/-- Positive doubles by their patterns; the quotient or product is rounded. -/
def product (a b : Nat) : Nat :=
  let (num, den) := Binary.double.fraction a
  let (num', den') := Binary.double.fraction b
  Binary.double.nearest (num * num') (den * den')

def quotient (a b : Nat) : Nat :=
  let (num, den) := Binary.double.fraction a
  let (num', den') := Binary.double.fraction b
  Binary.double.nearest (num * den') (den * num')

def powerOfTen (n : Nat) : Nat := Binary.double.nearest (Nat.pow 10 n) 1

def scaleDown (a n : Nat) : Nat :=
  if n ≤ 308 then quotient a (powerOfTen n)
  else if a = 0 then 0
  else scaleDown (quotient a (powerOfTen 308)) (n - 308)
termination_by n
decreasing_by omega

def scale? (n : Nat) (exponent : Int) : Option Nat :=
  let a := Binary.double.nearest n 1
  if a = 0 then some 0
  else if exponent < 0 then some (scaleDown a exponent.natAbs)
  else if 308 < exponent then none
  else
    let r := product a (powerOfTen exponent.toNat)
    if Binary.double.isFinite r then some r else none

namespace Literal

variable (l : Literal)

def double (magnitude : Nat) : Number :=
  .double (.ofNat (if l.negative then Binary.double.signBit + magnitude else magnitude))

/-- A number without fraction and exponent is an integer if 64 bits can hold it. Minus zero is a
double. -/
def integer? (n : Nat) : Option Number :=
  if !l.negative then some (.int n)
  else if 0 < n ∧ n ≤ 9223372036854775808 then some (.int (-n))
  else (scale? n 0).map l.double

/-- The value, unless it is out of the range of doubles. An exponent that 32 bits cannot hold is too
large, or makes zero. -/
def value? : Option Number :=
  let (n, left) := appendDigits 0 l.whole
  let (m, unused) := appendDigits n l.fraction
  let places : Int := left.length - (l.fraction.length - unused.length : Nat)
  match l.exponent with
  | none =>
    if left = [] ∧ l.fraction = [] then l.integer? n else (scale? m places).map l.double
  | some (minus, digits) =>
    let e := Nat.ofDigitChars 10 digits 0
    if 2147483648 ≤ e then
      if m ≠ 0 ∧ !minus then none else some (l.double 0)
    else (scale? m (places + (if minus then -(e : Int) else e))).map l.double

end Literal
end Cbor.Json
