import Cbor.Binary.Format
import Cbor.Calendar.Civil
import Cbor.Text.Numeral

namespace Cbor

/-- Seconds and nanoseconds since 1970-01-01 in UTC, and the offset of local time in seconds. -/
structure Moment where
  seconds : Int
  nanos : Nat
  offset : Int
  nanos_lt : nanos < 1000000000 := by omega
  deriving DecidableEq, Repr

namespace Moment

def leastSecond : Int := -377705116800
def greatestSecond : Int := 253402300799

def ofSeconds? (seconds : Int) : Option Moment :=
  if leastSecond ≤ seconds ∧ seconds ≤ greatestSecond then some ⟨seconds, 0, 0, by decide⟩
  else none

def ofNanos? (nanos : Int) : Option Moment :=
  let seconds := nanos / 1000000000
  if leastSecond ≤ seconds ∧ seconds ≤ greatestSecond then
    some ⟨seconds, (nanos % 1000000000).toNat, 0, by omega⟩
  else none

/-- The moment a number of seconds after 1970, given as a double. The product with the number of
nanoseconds in a second is rounded to a double and cut towards zero. -/
def ofDouble? (bits : UInt64) : Option Moment :=
  let n := bits.toNat
  if Binary.double.isFinite n then
    let (num, den) := Binary.double.fraction n
    let product := Binary.double.nearest (num * 1000000000) den
    if Binary.double.isFinite product then
      let (num, den) := Binary.double.fraction product
      let nanos : Int := num / den
      ofNanos? (if Binary.double.isNegative n then -nanos else nanos)
    else none
  else none

variable (t : Moment)

def sameInstant (u : Moment) : Bool := t.seconds = u.seconds && t.nanos = u.nanos

def localSeconds : Int := t.seconds + t.offset

def date : Civil := Civil.ofDayNumber (t.localSeconds / 86400)

def secondOfDay : Nat := (t.localSeconds % 86400).toNat

def hour : Nat := t.secondOfDay / 3600

def minute : Nat := t.secondOfDay / 60 % 60

def second : Nat := t.secondOfDay % 60

def fractionDigits : List Char :=
  ((Numeral.padded 9 t.nanos).reverse.dropWhile (· == '0')).reverse

def clock (hour : List Char) : List Char :=
  hour ++ ':' :: Numeral.padded 2 t.minute ++ ':' :: Numeral.padded 2 t.second

/-- Reading form: the hour without a zero in front, at least one digit of fraction, and the offset
down to its seconds. -/
def display : List Char :=
  let d := t.date
  let sign := if d.year < 0 then ['-'] else if d.year < 10000 then [] else ['+']
  let date := sign ++ Numeral.padded 4 d.year.natAbs ++ '-' :: Numeral.padded 2 d.month.toNat ++
    '-' :: Numeral.padded 2 d.day.toNat
  let fraction := if t.nanos = 0 then ['0'] else t.fractionDigits
  let o := t.offset.natAbs
  let offset := (if t.offset < 0 then '-' else '+') :: Numeral.padded 2 (o / 3600) ++
    ':' :: Numeral.padded 2 (o / 60 % 60) ++ ':' :: Numeral.padded 2 (o % 60)
  date ++ ' ' :: t.clock (Numeral.ofNat t.hour) ++ '.' :: fraction ++ ' ' :: offset

end Moment
end Cbor
