import Cbor.Fault
import Cbor.Octets.Basic

namespace Cbor.Command

inductive Failure where
  | usage
  /-- Reading or writing an item failed; `context` is what the command says about it. -/
  | codec (context : String) (fault : Fault)
  | other (message : String)
  deriving DecidableEq, Repr

/-- The content of files by their paths, and of standard input as `-`. -/
abbrev Files := String → Option Octets

def orFail (f : Failure) : Option α → Except Failure α
  | some a => .ok a
  | none => .error f

/-- A fault that a command adds no words of its own to. -/
def bare (fault : Fault) : Failure := .codec fault.message fault

def isStandard (path : String) : Bool := path = "-"

def Files.input (files : Files) (path : String) : Except Failure Octets :=
  let name := if isStandard path then "stdin" else path
  orFail (.other ("Failed to read " ++ name)) (files path)

end Cbor.Command
