import Cbor.Command.Inspect
import Cbor.Encoder.Basic

namespace Cbor.Command

structure Compose where
  selfDescribe : Bool := false
  stringRef : Bool := false
  deterministic : Bool := false
  options : Option String := none
  output : String := "-"
  input : String := "-"
  deriving Repr

namespace Compose

def switches : List Switch :=
  [{ long := "self-describe" }, { long := "string-ref" }, { long := "deterministic" },
    { long := "options", takesValue := true },
    { long := "output", letter := 'o', takesValue := true }]

def parse? (words : List String) : Option Compose := do
  let a ← Arguments.parse? switches words
  let options ← Inspect.optional? Inspect.path? (a.value? "options")
  let input ←
    match a.operands with
    | [] => some "-"
    | [input] => some input
    | _ => none
  some
    { selfDescribe := a.has "self-describe"
      stringRef := a.has "string-ref"
      deterministic := a.has "deterministic"
      options
      output := (a.value? "output").getD "-"
      input }

def defaults : Encoder.Options := { flags := .text ||| .keyText }

def adjust (c : Compose) (o : Encoder.Options) : Encoder.Options :=
  let flags := if c.selfDescribe then o.flags ||| .selfDescribe else o.flags
  let flags := if c.deterministic then flags ||| .cde else flags
  { o with flags, stringRef := if c.stringRef then .on else o.stringRef }

def run (c : Compose) (files : Files) : Except Failure Octets := do
  let data ← files.input c.input
  let text ← orFail (.other "Input is not valid UTF-8") (Utf8.decode? data)
  let json ← orFail (.other "Failed to parse JSON") (Json.parse? text)
  let o ←
    match c.options with
    | some path => Inspect.loadOptions Json.encoderOptions? files path
    | none => .ok defaults
  (encode json.toItem (c.adjust o)).mapError (.codec "Failed to encode CBOR")

end Compose
end Cbor.Command
