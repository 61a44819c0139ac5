import Cbor.Proofs.Diagnostic.Literal
import Cbor.Proofs.Wire.Tree

namespace Cbor.Diagnostic

/-- Takes something off the front of a text, and the blanks behind it. -/
abbrev Reader (α : Type) := List Char → Option (α × List Char)

namespace Reader

def expect (c : Char) : List Char → Option (List Char)
  | d :: s => if d = c then some (skip s) else none
  | [] => none

def content (p : Place) : Reader Octets
  | [] => if p = .outside then some ([], []) else none
  | c :: s =>
    match p.step c with
    | some (q, b) => (content q s).map fun r ↦ (b ++ r.1, r.2)
    | none => if p = .outside then some ([], c :: s) else none

def literal : Reader Lexeme := fun s ↦
  (content .outside s).map fun r ↦ (.ofString (s.head? = some '"') r.1, r.2)

def number (s : List Char) : Nat × List Char :=
  (Nat.ofDigitChars 10 (s.takeWhile Char.isDigit) 0, s.dropWhile Char.isDigit)

variable {α : Type}

def sequence (p : Reader α) (close : Char) : Nat → Reader (List α)
  | 0, _ => none
  | n + 1, s => do
    let (a, s) ← p s
    match s with
    | [] => none
    | c :: s =>
      if c = ',' then (sequence p close n (skip s)).map fun r ↦ (a :: r.1, r.2)
      else if c = close then some ([a], skip s)
      else none

def elements (p : Reader α) (close : Char) (n : Nat) : Reader (List α)
  | [] => none
  | c :: s => if c = close then some ([], skip s) else sequence p close n (c :: s)

def container (p : Reader (List Lexeme)) (make : Option UInt64 → Lexeme) (close : Char) (n : Nat) :
    Reader (List Lexeme) := fun s ↦
  let indefinite := s.head? = some '_'
  (elements p close n (skip (if indefinite then s.tail else s))).map fun r ↦
    (make (Wire.count indefinite r.1.length) :: r.1.flatten ++ Wire.ending indefinite, r.2)

def entry (p : Reader (List Lexeme)) : Reader (List Lexeme) := fun s ↦ do
  let (key, s) ← p s
  let s ← expect ':' s
  let (value, s) ← p s
  return (key ++ value, s)

def tagged (p : Reader (List Lexeme)) (number : Nat) : Reader (List Lexeme) := fun s ↦ do
  let (content, s) ← p (skip s)
  let s ← expect ')' s
  return (.tag (.ofNat number) :: content, s)

def stringStart : List Lexeme → Lexeme
  | .text _ :: _ => .textStart
  | _ => .bytesStart

def chunks (n : Nat) : Reader (List Lexeme) := fun s ↦
  (sequence literal ')' n (skip s)).map fun r ↦ (stringStart r.1 :: r.1 ++ [.stop], r.2)

def numeral (p : Reader (List Lexeme)) : Reader (List Lexeme) := fun s ↦
  match number s with
  | (m, '(' :: s) => tagged p m s
  | (m, s) => some ([.unsigned (.ofNat m)], skip s)

/-- A mark behind the quotes of an empty text says that there are no chunks. -/
def string : Reader (List Lexeme) := fun s ↦ do
  let (l, s) ← literal s
  match s with
  | '_' :: s => return ([.textStart, .stop], skip s)
  | s => return ([l], s)

def words : List (List Char × Lexeme) :=
  [("true".toList, .bool true), ("false".toList, .bool false), ("null".toList, .null),
    ("undefined".toList, .undefined)]

def named : Reader (List Lexeme) := fun s ↦ do
  let name := s.takeWhile Char.isAlpha
  let s := s.dropWhile Char.isAlpha
  if name = "simple".toList then
    let (m, s) := number s.tail
    let s ← expect ')' s
    return ([.simple (.ofNat m)], s)
  else
    let l ← words.lookup name
    return ([l], skip s)

/-- Reads one item, in which fewer than `fuel` items stand in each other. -/
def item : (fuel : Nat) → Reader (List Lexeme)
  | 0, _ => none
  | _ + 1, [] => none
  | n + 1, c :: s =>
    if c.isDigit then numeral (item n) (c :: s)
    else
      match c with
      | '-' =>
        let (m, s) := number s
        some ([.negative (.ofNat (m - 1))], skip s)
      | '"' | 'h' => string (c :: s)
      | '\x27' => some ([.bytesStart, .stop], skip (s.drop 2))
      | '(' => chunks n (s.drop 1)
      | '[' => container (item n) .array ']' n s
      | '\x7b' => container (entry (item n)) .map '\x7d' n s
      | _ => named (c :: s)

/-- The lexemes that a whole text stands for. -/
def read (s : List Char) : Option (List Lexeme) := do
  let (ls, rest) ← item s.length s
  if rest = [] then return ls else none

end Reader
end Cbor.Diagnostic
