import Cbor.Decoder.Options
import Cbor.Json.Form

namespace Cbor.Json

namespace Form

def natural? (bound : Nat) : Form → Option Nat
  | number l =>
    match l.value? with
    | some (.int n) => if 0 ≤ n ∧ n < bound then some n.toNat else none
    | _ => none
  | _ => none

def bool? : Form → Option Bool
  | bool b => some b
  | _ => none

def nullable? (read : Form → Option α) : Form → Option (Option α)
  | null => some none
  | f => (read f).map some

/-- The name of a variant and what comes with it: a string, or the one member of an object. -/
def variant? : Form → Option (String × Form)
  | string (some name) => some (name, null)
  | object [(some name, f)] => some (name, f)
  | _ => none

def isNull : Form → Bool
  | null => true
  | _ => false

def choice? (choices : List (String × α)) (f : Form) : Option α := do
  let (name, content) ← f.variant?
  if content.isNull then choices.lookup name else none

end Form

structure Field (σ : Type) where
  name : String
  set : Form → σ → Option σ

def field (name : String) (read : Form → Option α) (set : α → σ → σ) : Field σ :=
  ⟨name, fun f r ↦ (read f).map fun a ↦ set a r⟩

namespace Field

def findIdx? (fields : List (Field σ)) (key : String) : Option Nat :=
  fields.findIdx? fun f ↦ f.name = key

/-- Sets the members of an object one by one. No field may be set twice. -/
def setMembers (fields : List (Field σ)) (seen : List Nat) (r : σ) :
    List (Option String × Form) → Option σ
  | [] => some r
  | (none, _) :: _ => none
  | (some key, form) :: rest =>
    match findIdx? fields key with
    | none => setMembers fields seen r rest
    | some i =>
      if seen.contains i then none
      else do
        let r ← (← fields[i]?).set form r
        setMembers fields (i :: seen) r rest

def setItems : List (Field σ) → σ → List Form → Option σ
  | _, r, [] => some r
  | [], _, _ :: _ => none
  | f :: fields, r, form :: rest => do
    let r ← f.set form r
    setItems fields r rest

def read (fields : List (Field σ)) (r : σ) : Form → Option σ
  | .object members => setMembers fields [] r members
  | .array items => setItems fields r items
  | _ => none

end Field

open Form

def flags? (f : Form) : Option Flags := (natural? UInt32.size f).map fun n ↦ ⟨.ofNat n⟩

def size? : Form → Option Nat := natural? UInt64.size

def indent? (f : Form) : Option Diagnostic.Indent := do
  let (name, content) ← f.variant?
  if name = "spaces" then return .spaces (.ofNat (← natural? UInt8.size content))
  choice? [("none", .none), ("tab", .tab)] f

def styleFields : List (Field Diagnostic.Style) :=
  [field "indent" indent? fun a r ↦ { r with indent := a },
    field "space" bool? fun a r ↦ { r with space := a },
    field "byte_space" (natural? UInt8.size) fun a r ↦ { r with byteSpace := .ofNat a },
    field "byte_wrap" (nullable? (natural? UInt16.size)) fun a r ↦
      { r with byteWrap := a.map UInt16.ofNat }]

def style? : Form → Option Diagnostic.Style := Field.read styleFields {}

def groupFields (update : (Tag.Groups → Tag.Groups) → σ → σ) : List (Field σ) :=
  [field "datetime" bool? fun a ↦ update fun g ↦ { g with dateTime := a },
    field "bignum" bool? fun a ↦ update fun g ↦ { g with bignum := a },
    field "decimal" bool? fun a ↦ update fun g ↦ { g with decimal := a },
    field "uri" bool? fun a ↦ update fun g ↦ { g with uri := a }]

def stringRef? : Form → Option Encoder.StringRef :=
  choice? [("off", .off), ("on", .on), ("explicit", .explicit)]

def sharedRef? : Form → Option Decoder.SharedRef :=
  choice? [("off", .off), ("on", .on), ("shareable", .shareable)]

def encoderFields : List (Field Encoder.Options) :=
  [field "flags" flags? fun a r ↦ { r with flags := a },
    field "max_depth" size? fun a r ↦ { r with maxDepth := a },
    field "string_ref" stringRef? fun a r ↦ { r with stringRef := a },
    field "shared_ref" bool? fun a r ↦ { r with sharedRef := a }] ++
  groupFields fun change r ↦ { r with groups := change r.groups }

def encoderOptions? : Form → Option Encoder.Options := Field.read encoderFields {}

def decoderFields : List (Field Decoder.Options) :=
  [field "flags" flags? fun a r ↦ { r with flags := a },
    field "max_depth" size? fun a r ↦ { r with maxDepth := a },
    field "max_size" size? fun a r ↦ { r with maxSize := a },
    field "offset" size? fun a r ↦ { r with offset := a },
    field "length" (nullable? size?) fun a r ↦ { r with length := a },
    field "string_ref" bool? fun a r ↦ { r with stringRef := a },
    field "shared_ref" sharedRef? fun a r ↦ { r with sharedRef := a }] ++
  groupFields (fun change r ↦ { r with groups := change r.groups }) ++
  [field "edn" style? fun a r ↦ { r with edn := a }]

def decoderOptions? : Form → Option Decoder.Options := Field.read decoderFields {}

/-- Options in a document of their own. Members that do not count may be nested to any depth. -/
def optionsIn? (read : Form → Option α) (text : List Char) : Option α := do
  read (← Form.parse? text.length text)

end Cbor.Json
