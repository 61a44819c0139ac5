import Cbor.Binary.Shortest
import Cbor.Json.Basic
import Cbor.Text.Numeral

namespace Cbor.Json

/-- A whole number of an exponent form is written without a point. -/
def floatLayout : Binary.Layout := ⟨-5, 15, false, .even⟩

def Number.render : Number → List Char
  | .int n => Numeral.ofInt n
  | .double bits => floatLayout.finite Binary.double bits.toNat

def escape (c : Char) : List Char :=
  match c with
  | '"' => ['\\', '"']
  | '\\' => ['\\', '\\']
  | '\x08' => ['\\', 'b']
  | '\x0c' => ['\\', 'f']
  | '\n' => ['\\', 'n']
  | '\r' => ['\\', 'r']
  | '\t' => ['\\', 't']
  | c =>
    if c.toNat < 0x20 then '\\' :: 'u' :: (Nat.toDigits 16 c.toNat).leftpad 4 '0' else [c]

def quoted (s : String) : List Char := '"' :: s.toList.flatMap escape ++ ['"']

def lineBreak : Option Nat → List Char
  | none => []
  | some level => '\n' :: List.replicate (2 * level) ' '

def colon : Option Nat → List Char
  | none => [':']
  | some _ => [':', ' ']

mutual

def write (level : Option Nat) (done : Array Char) : Json → Array Char
  | null => done ++ "null".toList
  | bool b => done ++ (if b then "true".toList else "false".toList)
  | number n => done ++ n.render
  | string s => done ++ quoted s
  | array [] => done ++ ['[', ']']
  | array (i :: is) =>
    let inner := level.map (· + 1)
    let done := writeItems inner (write inner (done ++ '[' :: lineBreak inner) i) is
    done ++ (lineBreak level ++ [']'])
  | object [] => done ++ ['\x7b', '\x7d']
  | object ((key, i) :: is) =>
    let inner := level.map (· + 1)
    let done := done ++ '\x7b' :: lineBreak inner ++ quoted key ++ colon level
    let done := writeMembers inner (write inner done i) is
    done ++ (lineBreak level ++ ['\x7d'])

def writeItems (level : Option Nat) (done : Array Char) : List Json → Array Char
  | [] => done
  | i :: is => writeItems level (write level (done ++ ',' :: lineBreak level) i) is

def writeMembers (level : Option Nat) (done : Array Char) : List (String × Json) → Array Char
  | [] => done
  | (key, i) :: is =>
    let done := done ++ ',' :: lineBreak level ++ quoted key ++ colon level
    writeMembers level (write level done i) is

end

def compact (j : Json) : List Char := (write none #[] j).toList

def pretty (j : Json) : List Char := (write (some 0) #[] j).toList

end Cbor.Json
