import Cbor.Json.Number
import Cbor.Octets.Hex

namespace Cbor.Json

inductive Form where
  | null
  | bool (b : Bool)
  | number (l : Literal)
  | string (s : Option String)
  | array (items : List Form)
  | object (members : List (Option String × Form))
  deriving Repr

namespace Form

instance : Inhabited Form := ⟨null⟩

def isSpace (c : Char) : Bool := c = ' ' || c = '\n' || c = '\t' || c = '\r'

def skipSpace (s : List Char) : List Char := s.dropWhile isSpace

def unit? (a b c d : Char) : Option Nat := do
  let digits ← [a, b, c, d].mapM Octets.hexDigit?
  return digits.foldl (fun n x ↦ n * 16 + x) 0

def unescape? : Char → Option Char
  | '"' => some '"'
  | '\\' => some '\\'
  | '/' => some '/'
  | 'b' => some '\x08'
  | 'f' => some '\x0c'
  | 'n' => some '\n'
  | 'r' => some '\r'
  | 't' => some '\t'
  | _ => none

/-- The characters of a string so far. `lead` is the first half of a surrogate pair that waits for
the second, `sound` is false once a half has stood alone. -/
structure Spelling where
  done : Array Char := #[]
  lead : Option Nat := none
  sound : Bool := true

namespace Spelling

def char (p : Spelling) (c : Char) : Spelling :=
  { p with done := p.done.push c, lead := none, sound := p.sound && p.lead.isNone }

def unit (p : Spelling) (n : Nat) : Spelling :=
  if 0xD800 ≤ n ∧ n < 0xDC00 then
    { p with lead := some n, sound := p.sound && p.lead.isNone }
  else if 0xDC00 ≤ n ∧ n < 0xE000 then
    match p.lead with
    | some m =>
      { p with
        done := p.done.push (Char.ofNat (0x10000 + (m - 0xD800) * 1024 + (n - 0xDC00)))
        lead := none }
    | none => { p with sound := false }
  else p.char (Char.ofNat n)

def text? (p : Spelling) : Option String :=
  if p.sound ∧ p.lead.isNone then some (String.ofList p.done.toList) else none

end Spelling

def parseString (p : Spelling) : List Char → Option (Option String × List Char)
  | [] => none
  | '"' :: s => some (p.text?, s)
  | '\\' :: 'u' :: a :: b :: c :: d :: s =>
    match unit? a b c d with
    | some n => parseString (p.unit n) s
    | none => none
  | '\\' :: c :: s =>
    match unescape? c with
    | some c => parseString (p.char c) s
    | none => none
  | c :: s => if c.toNat < 0x20 then none else parseString (p.char c) s

def parseDigits (s : List Char) : Option (List Char × List Char) :=
  let digits := s.takeWhile Char.isDigit
  if digits = [] then none else some (digits, s.drop digits.length)

def parseFraction : List Char → Option (List Char × List Char)
  | '.' :: s => parseDigits s
  | s => some ([], s)

def parseExponent : List Char → Option (Option (Bool × List Char) × List Char)
  | 'e' :: s | 'E' :: s => do
    let (minus, s) :=
      match s with
      | '+' :: s => (false, s)
      | '-' :: s => (true, s)
      | s => (false, s)
    let (digits, s) ← parseDigits s
    return (some (minus, digits), s)
  | s => some (none, s)

/-- No zero may stand in front of other digits. -/
def parseNumber (s : List Char) : Option (Form × List Char) := do
  let (negative, s) :=
    match s with
    | '-' :: s => (true, s)
    | s => (false, s)
  let (whole, s) ← parseDigits s
  if whole.head? = some '0' ∧ whole ≠ ['0'] then none
  let (fraction, s) ← parseFraction s
  let (exponent, s) ← parseExponent s
  return (number ⟨negative, whole, fraction, exponent⟩, s)

def parseScalar : List Char → Option (Form × List Char)
  | 'n' :: 'u' :: 'l' :: 'l' :: s => some (null, s)
  | 't' :: 'r' :: 'u' :: 'e' :: s => some (bool true, s)
  | 'f' :: 'a' :: 'l' :: 's' :: 'e' :: s => some (bool false, s)
  | '"' :: s => (parseString {} s).map fun (t, s) ↦ (string t, s)
  | s => parseNumber s

mutual

def parseValue (limit : Nat) : (fuel : Nat) → List Char → Option (Form × List Char)
  | 0, _ => none
  | fuel + 1, s =>
    match skipSpace s with
    | '[' :: s =>
      if limit = 0 then none
      else
        match skipSpace s with
        | ']' :: s => some (array [], s)
        | s => parseItems (limit - 1) fuel #[] s
    | '\x7b' :: s =>
      if limit = 0 then none
      else
        match skipSpace s with
        | '\x7d' :: s => some (object [], s)
        | s => parseMembers (limit - 1) fuel #[] s
    | s => parseScalar s

def parseItems (limit : Nat) : (fuel : Nat) → Array Form → List Char → Option (Form × List Char)
  | 0, _, _ => none
  | fuel + 1, done, s =>
    match parseValue limit fuel s with
    | none => none
    | some (item, s) =>
      match skipSpace s with
      | ',' :: s => parseItems limit fuel (done.push item) s
      | ']' :: s => some (array (done.push item).toList, s)
      | _ => none

def parseMembers (limit : Nat) :
    (fuel : Nat) → Array (Option String × Form) → List Char → Option (Form × List Char)
  | 0, _, _ => none
  | fuel + 1, done, s =>
    match skipSpace s with
    | '"' :: s =>
      match parseString {} s with
      | none => none
      | some (key, s) =>
        match skipSpace s with
        | ':' :: s =>
          match parseValue limit fuel s with
          | none => none
          | some (value, s) =>
            match skipSpace s with
            | ',' :: s => parseMembers limit fuel (done.push (key, value)) s
            | '\x7d' :: s => some (object (done.push (key, value)).toList, s)
            | _ => none
        | _ => none
    | _ => none

end

/-- The whole of a text. Each character is met at most twice on the way to any other. -/
def parse? (limit : Nat) (s : List Char) : Option Form :=
  match parseValue limit (2 * s.length + 2) s with
  | some (form, rest) => if skipSpace rest = [] then some form else none
  | none => none

mutual

def value? : Form → Option Json
  | null => some .null
  | bool b => some (.bool b)
  | number l => l.value?.map .number
  | string s => s.map .string
  | array items => (values? items).map .array
  | object members => (memberValues? members).map ofMembers

def values? : List Form → Option (List Json)
  | [] => some []
  | f :: fs => do
    let v ← value? f
    let vs ← values? fs
    return v :: vs

def memberValues? : List (Option String × Form) → Option (List (String × Json))
  | [] => some []
  | (key, f) :: fs => do
    let key ← key
    let v ← value? f
    let vs ← memberValues? fs
    return (key, v) :: vs

end

end Form

def nestingLimit : Nat := 127

def parse? (s : List Char) : Option Json := do (← Form.parse? nestingLimit s).value?

end Cbor.Json
