import Cbor.Binary.Format

namespace Cbor.Binary

structure Decimal where
  coefficient : Nat
  exponent : Int
  deriving DecidableEq, Repr

namespace Decimal

def digits (d : Decimal) : List Char := Nat.toDigits 10 d.coefficient

def order (d : Decimal) : Int := d.exponent + d.digits.length - 1

end Decimal

def decimalOrder (num den : Nat) : Int :=
  if den ≤ num then (Nat.toDigits 10 (num / den)).length - 1
  else -(Nat.toDigits 10 ((den - 1) / num)).length

inductive Tie where
  | up
  | even
  deriving DecidableEq, Repr

structure Interval where
  low : Nat
  value : Nat
  high : Nat
  den : Nat
  closed : Bool

/-- The numbers that round to a positive finite pattern. Below a power of two the next pattern is
half as far away. -/
def Format.interval (f : Format) (bits : Nat) : Interval :=
  let m := f.significand bits
  let (unit, den) := ratio 1 (f.exponent bits - 2)
  let below :=
    if m = 1 <<< f.fractionBits ∧ 1 <<< (f.fractionBits + 1) ≤ f.magnitude bits then 1 else 2
  ⟨(4 * m - below) * unit, 4 * m * unit, (4 * m + 2) * unit, den, m % 2 = 0⟩

def Interval.contains (i : Interval) (num den : Nat) : Bool :=
  if i.closed then i.low * den ≤ num * i.den && num * i.den ≤ i.high * den
  else i.low * den < num * i.den && num * i.den < i.high * den

/-- The better of the two neighbours that the value has among the multiples of `10 ^ place`, if one
of them reads back. -/
def Interval.onGrid? (i : Interval) (tie : Tie) (place : Int) : Option Decimal :=
  let up := Nat.pow 10 place.toNat
  let down := Nat.pow 10 (-place).toNat
  let c := i.value * down / (i.den * up)
  let reads (c : Nat) : Bool := i.contains (c * up) down
  let upper : Bool :=
    match compare (2 * (i.value * down)) ((2 * c + 1) * (i.den * up)) with
    | .lt => false
    | .gt => true
    | .eq => tie = .up || c % 2 = 1
  match reads c, reads (c + 1) with
  | true, true => some ⟨bif upper then c + 1 else c, place⟩
  | true, false => some ⟨c, place⟩
  | false, true => some ⟨c + 1, place⟩
  | false, false => none

def Decimal.trim (d : Decimal) : Decimal :=
  let zeros := (d.digits.reverse.takeWhile (· == '0')).length
  ⟨d.coefficient / Nat.pow 10 zeros, d.exponent + zeros⟩

/-- The decimal with the fewest digits that reads back as the positive finite pattern `bits`, and
of these the nearest one. Seventeen digits are enough for every format here. -/
def Format.shortest (f : Format) (tie : Tie) (bits : Nat) : Decimal :=
  let i := f.interval bits
  let order := decimalOrder i.value i.den
  let found := (List.range 17).findSome? fun (n : Nat) ↦ i.onGrid? tie (order - n)
  (found.getD ⟨0, 0⟩).trim

/-- How decimals are laid out: those with an order in `least..greatest` without exponent, the
others with one digit before the point, which `point` asks for also where no digit follows it. -/
structure Layout where
  least : Int
  greatest : Int
  point : Bool
  tie : Tie

namespace Layout

variable (l : Layout)

def plain (d : Decimal) : List Char :=
  let ds := d.digits
  if 0 ≤ d.exponent then ds ++ List.replicate d.exponent.toNat '0' ++ ['.', '0']
  else if 0 ≤ d.order then
    ds.take (d.order.toNat + 1) ++ '.' :: ds.drop (d.order.toNat + 1)
  else '0' :: '.' :: List.replicate (-d.order - 1).toNat '0' ++ ds

def scientific (d : Decimal) : List Char :=
  let (first, rest) := d.digits.splitAt 1
  let fraction := if rest ≠ [] then '.' :: rest else if l.point then ['.', '0'] else []
  let sign := if d.order < 0 then '-' else '+'
  first ++ fraction ++ 'e' :: sign :: Nat.toDigits 10 d.order.natAbs

def decimal (d : Decimal) : List Char :=
  if l.least ≤ d.order ∧ d.order ≤ l.greatest then plain d else l.scientific d

def finite (f : Format) (bits : Nat) : List Char :=
  let m := f.magnitude bits
  let text := if m = 0 then ['0', '.', '0'] else l.decimal (f.shortest l.tie m)
  if f.isNegative bits then '-' :: text else text

end Layout
end Cbor.Binary
