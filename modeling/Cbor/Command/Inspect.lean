import Cbor.Command.Arguments
import Cbor.Command.Failure
import Cbor.Decoder.Stream
import Cbor.Diagnostic.Render
import Cbor.Json.Conversion
import Cbor.Json.Options

namespace Cbor.Command

inductive Format where
  | diagnostic
  | json
  | hex
  deriving DecidableEq, Repr

structure Inspect where
  format : Format := .diagnostic
  indent : Option UInt8 := none
  sequence : Bool := false
  options : Option String := none
  output : String := "-"
  input : String
  deriving Repr

namespace Inspect

def switches : List Switch :=
  [{ long := "format", takesValue := true }, { long := "indent", takesValue := true },
    { long := "sequence", letter := 's' }, { long := "options", takesValue := true },
    { long := "output", letter := 'o', takesValue := true }]

def format? : String → Option Format
  | "diag" | "diagnostic" => some .diagnostic
  | "json" => some .json
  | "hex" => some .hex
  | _ => none

/-- A number from 0 to 255, with or without sign and zeros in front. -/
def octet? (s : String) : Option UInt8 := do
  let (negative, digits) :=
    match s.toList with
    | '-' :: s => (true, s)
    | '+' :: s => (false, s)
    | s => (false, s)
  let n ← Numeral.nat? digits
  if n < 256 ∧ (negative → n = 0) then some (.ofNat n) else none

def optional? (read : String → Option α) : Option String → Option (Option α)
  | none => some none
  | some s => (read s).map some

def path? (s : String) : Option String := if s.isEmpty then none else some s

def parse? (words : List String) : Option Inspect := do
  let a ← Arguments.parse? switches words
  let format ← optional? format? (a.value? "format")
  let indent ← optional? octet? (a.value? "indent")
  let options ← optional? path? (a.value? "options")
  match a.operands with
  | [input] =>
    some
      { format := format.getD .diagnostic
        indent
        sequence := a.has "sequence"
        options
        output := (a.value? "output").getD "-"
        input }
  | _ => none

/-- What is read without an options file: text strings are native, integers may be keys. -/
def defaults : Decoder.Options := { flags := .text ||| .keyText ||| .intKey }

def loadOptions (read : Json.Form → Option α) (files : Files) (path : String) :
    Except Failure α := do
  let failure := Failure.other ("Failed to read options file " ++ path)
  let text ← orFail failure ((files path).bind Utf8.decode?)
  orFail (.other ("Invalid options file " ++ path)) (Json.optionsIn? read text)

/-- Every item of a sequence; the input may not end inside of one. -/
def sequenceItems (data : Octets) (o : Decoder.Options) : Except Failure (List Item) := do
  let d ← (Decoder.new o).mapError bare
  let (added, d) := d.add data
  added.mapError bare
  let (items, ended, d) := d.drain #[]
  ended.mapError (.codec "Failed to decode CBOR")
  if d.isPartial then
    throw (.other ("Truncated item after " ++ items.size.repr ++ " complete items (" ++
      d.buffer.length.repr ++ " bytes left)"))
  return items.toList

def lines (texts : List (List Char)) : List Char := List.intercalate ['\n'] texts

def render (c : Inspect) (o : Decoder.Options) (data : Octets) : Except Failure (List Char) :=
  match c.format, c.sequence with
  | .diagnostic, true => do
    let items ← sequenceItems data { o with flags := o.flags ||| .edn }
    return lines (items.map fun i ↦ Utf8.decodeLossy (i.utf8?.getD []))
  | .diagnostic, false => (Diagnostic.render data o).mapError bare
  | .json, true => do
    let items ← sequenceItems data o
    return lines (items.map fun i ↦ i.toJson.pretty)
  | .json, false => do
    let item ← (decode data o).mapError (.codec "Failed to decode CBOR")
    return item.toJson.pretty
  | .hex, _ => .ok data.hex

def run (c : Inspect) (files : Files) : Except Failure Octets := do
  let data ← files.input c.input
  let o ←
    match c.options with
    | some path => loadOptions Json.decoderOptions? files path
    | none => .ok defaults
  let o :=
    match c.indent with
    | some n => { o with edn := { o.edn with indent := .spaces n } }
    | none => o
  let text ← c.render o data
  return Utf8.encode (text ++ if c.output = "" ∨ isStandard c.output then ['\n'] else [])

end Inspect
end Cbor.Command
