import Cbor.Decoder.Basic

namespace Cbor.Diagnostic

open Decoder (Options)

def transcribe (o : Options) (t : Transcript) (stripped : Bool) (data : Octets) :
    Option Fault × Transcript :=
  match _h : Lexeme.read o.maxSize data with
  | .error e => (some e, t)
  | .ok .needHeader | .ok .needContent => (some .truncatedData, t)
  | .ok (.ready l rest) =>
    if Decoder.skips o stripped t.stack.isEmpty l then transcribe o t true rest
    else
      match t.push o l with
      | (.error e, t) => (some e, t)
      | (.ok true, t) => (if rest.isEmpty then none else some .extraneousData, t)
      | (.ok false, t) => transcribe o t stripped rest
termination_by data.length
decreasing_by all_goals exact Lexeme.length_lt_of_read ‹_›

def errorComment (e : Fault) : List Char :=
  "/ERROR:".toList ++ Numeral.ofNat e.code ++ " (".toList ++ e.name.toList ++ ")/".toList

/-- Only options that are not valid are an error here. -/
def render (data : Octets) (o : Options) : Except Fault (List Char) := do
  o.check
  o.edn.check
  match transcribe o {} false (data.window o.offset o.length) with
  | (none, t) => return t.page.out.toList
  | (some e, t) =>
    let text := (t.page.out.popWhile Char.isWhitespace).toList
    return text ++ (if text.isEmpty then [] else [' ']) ++ errorComment e

end Cbor.Diagnostic
