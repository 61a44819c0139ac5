namespace Cbor.Command

structure Switch where
  long : String
  letter : Option Char := none
  takesValue : Bool := false
  deriving DecidableEq, Repr

/-- What a command line gives: options by their long names, in order, and operands. -/
structure Arguments where
  options : List (String × Option String) := []
  operands : List String := []
  deriving Repr

namespace Arguments

variable (a : Arguments)

def has (long : String) : Bool := a.options.any (·.1 = long)

def value? (long : String) : Option String := (a.options.lookup long).join

def add? (s : Switch) (value : Option String) : Option Arguments :=
  if a.has s.long then none else some { a with options := a.options ++ [(s.long, value)] }

end Arguments

def looksLikeOption (s : String) : Bool := s.startsWith "-" && s ≠ "-"

/-- What is still to be read of a cluster of letters: the last of them may take a value, joined with
or without an equals sign. The answer is the option that waits for the next word. -/
def readLetters (switches : List Switch) (a : Arguments) :
    List Char → Option (Arguments × Option Switch)
  | [] => some (a, none)
  | c :: rest => do
    let s ← switches.find? (·.letter = some c)
    if s.takesValue then
      match rest with
      | [] => return (a, some s)
      | '=' :: value => return (← a.add? s (some (String.ofList value)), none)
      | value => return (← a.add? s (some (String.ofList value)), none)
    else readLetters switches (← a.add? s none) rest

def readLong (switches : List Switch) (a : Arguments) (word : List Char) :
    Option (Arguments × Option Switch) := do
  let name := word.takeWhile (· ≠ '=')
  let joined := word.drop name.length
  let s ← switches.find? (·.long.toList = name)
  match joined, s.takesValue with
  | '=' :: value, true => return (← a.add? s (some (String.ofList value)), none)
  | [], true => return (a, some s)
  | [], false => return (← a.add? s none, none)
  | _, _ => none

/-- Reads words; `waiting` is an option whose value comes next. -/
def readWords (switches : List Switch) (a : Arguments) (waiting : Option Switch) :
    List String → Option Arguments
  | [] => if waiting.isSome then none else some a
  | word :: words =>
    match waiting with
    | some s =>
      if looksLikeOption word then none
      else do readWords switches (← a.add? s (some word)) none words
    | none =>
      match word.toList with
      | ['-', '-'] => some { a with operands := a.operands ++ words }
      | '-' :: '-' :: long => do
        let (a, waiting) ← readLong switches a long
        readWords switches a waiting words
      | ['-'] => readWords switches { a with operands := a.operands ++ [word] } none words
      | '-' :: letters => do
        let (a, waiting) ← readLetters switches a letters
        readWords switches a waiting words
      | _ => readWords switches { a with operands := a.operands ++ [word] } none words

def Arguments.parse? (switches : List Switch) (words : List String) : Option Arguments :=
  readWords switches {} none words

end Cbor.Command
