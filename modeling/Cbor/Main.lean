import Cbor.Command.Compose

namespace Cbor.Command

def readPath (path : String) : IO (Option Octets) := do
  try
    let data ← if isStandard path then (← IO.getStdin).readBinToEnd else IO.FS.readBinFile path
    return some data.toList
  catch _ => return none

def readFiles (paths : List String) : IO Files := do
  let contents ← paths.mapM fun path ↦ return (path, ← readPath path)
  return fun path ↦ (contents.lookup path).join

def writePath (path : String) (b : Octets) : IO Unit := do
  let data := ByteArray.mk b.toArray
  if path = "" ∨ isStandard path then (← IO.getStdout).write data
  else IO.FS.writeBinFile path data

def report : Failure → String
  | .usage => "error: the arguments are not valid"
  | .codec context fault =>
    "Error: " ++ context ++ (if context = fault.message then "" else ": " ++ fault.message)
  | .other message => "Error: " ++ message

def finish (output : String) : Except Failure Octets → IO UInt32
  | .ok b => do
    writePath output b
    return 0
  | .error f => do
    (← IO.getStderr).putStrLn (report f)
    return if f = .usage then 2 else 1

end Cbor.Command

open Cbor.Command in
def main (words : List String) : IO UInt32 := do
  match words with
  | "inspect" :: words =>
    match Inspect.parse? words with
    | some c => finish c.output (c.run (← readFiles (c.input :: c.options.toList)))
    | none => finish "-" (.error .usage)
  | "compose" :: words =>
    match Compose.parse? words with
    | some c => finish c.output (c.run (← readFiles (c.input :: c.options.toList)))
    | none => finish "-" (.error .usage)
  | _ => finish "-" (.error .usage)
