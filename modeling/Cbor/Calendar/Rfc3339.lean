import Cbor.Calendar.Moment
import Cbor.Octets.Basic

namespace Cbor.Rfc3339

def digits? (count : Nat) (b : Octets) : Option (Nat × Octets) :=
  let ds := b.take count
  if ds.length = count ∧ ds.all (fun x ↦ 48 ≤ x && x ≤ 57) then
    some (ds.foldl (fun n x ↦ n * 10 + (x.toNat - 48)) 0, b.drop count)
  else none

def skipAny? : Octets → Option Octets
  | x :: b => if x < 0x80 then some b else none
  | [] => none

def skip? (x : UInt8) : Octets → Option Octets
  | y :: b => if x = y then some b else none
  | [] => none

/-- Nanoseconds from the digits after a point; those after the ninth do not count. -/
def fraction? : Octets → Option (Nat × Octets)
  | 46 :: b =>
    let ds := b.takeWhile fun x ↦ 48 ≤ x && x ≤ 57
    let kept := (ds ++ List.replicate 9 48).take 9
    if ds = [] then none
    else some (kept.foldl (fun n x ↦ n * 10 + (x.toNat - 48)) 0, b.drop ds.length)
  | b => some (0, b)

/-- `Z`, or a sign with hours up to 23 and minutes up to 59. -/
def offset? : Octets → Option (Int × Octets)
  | 90 :: b | 122 :: b => some (0, b)
  | x :: b => do
    let sign : Int ← if x = 43 then some 1 else if x = 45 then some (-1) else none
    let (hours, b) ← digits? 2 b
    let b ← skip? 58 b
    let (minutes, b) ← digits? 2 b
    if hours ≤ 23 ∧ minutes ≤ 59 then some (sign * (hours * 3600 + minutes * 60 : Nat), b) else none
  | [] => none

def endsMonth (seconds : Int) : Bool :=
  seconds % 86400 = 86399 && (Civil.ofDayNumber (seconds / 86400 + 1)).day = 1

/-- Any one ASCII character may stand between date and time. A second 60 is a leap second: it is
taken at the end of a month in UTC only, as the last nanosecond before it. -/
def parse? (b : Octets) : Option Moment := do
  let (year, b) ← digits? 4 b
  let b ← skip? 45 b
  let (month, b) ← digits? 2 b
  let b ← skip? 45 b
  let (day, b) ← digits? 2 b
  let b ← skipAny? b
  let (hour, b) ← digits? 2 b
  let b ← skip? 58 b
  let (minute, b) ← digits? 2 b
  let b ← skip? 58 b
  let (second, b) ← digits? 2 b
  let (nanos, b) ← fraction? b
  let (offset, b) ← offset? b
  let date : Civil := ⟨year, month, day⟩
  let leap := second = 60
  let second := if leap then 59 else second
  let seconds := date.dayNumber * 86400 + (hour * 3600 + minute * 60 + second : Nat) - offset
  let nanos := if leap then 999999999 else nanos
  if b = [] ∧ date.isValid ∧ hour ≤ 23 ∧ minute ≤ 59 ∧ second ≤ 59 ∧ (leap → endsMonth seconds) then
    if h : nanos < 1000000000 then some ⟨seconds, nanos, offset, h⟩ else none
  else none

/-- The stamp of a moment with a year in 0..9999 and an offset of whole minutes. -/
def format? (t : Moment) : Option (List Char) :=
  let d := t.date
  if 0 ≤ d.year ∧ d.year ≤ 9999 ∧ t.offset % 60 = 0 then
    let date := Numeral.padded 4 d.year.toNat ++ '-' :: Numeral.padded 2 d.month.toNat ++
      '-' :: Numeral.padded 2 d.day.toNat
    let fraction := if t.nanos = 0 then [] else '.' :: t.fractionDigits
    let minutes := t.offset.natAbs / 60
    let offset :=
      if t.offset = 0 then ['Z']
      else (if t.offset < 0 then '-' else '+') :: Numeral.padded 2 (minutes / 60) ++
        ':' :: Numeral.padded 2 (minutes % 60)
    some (date ++ 'T' :: t.clock (Numeral.padded 2 t.hour) ++ fraction ++ offset)
  else none

end Cbor.Rfc3339
