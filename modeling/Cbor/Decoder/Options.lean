import Cbor.Diagnostic.Style
import Cbor.Encoder.Options

namespace Cbor.Decoder

/-- What becomes of shared items: tags 28 and 29 stay tags, the content is copied to each
reference, or content and references become one shareable cell. -/
inductive SharedRef where
  | off
  | on
  | shareable
  deriving DecidableEq, Repr

structure Options where
  flags : Flags := Flags.standard
  maxDepth : Nat := defaultMaxDepth
  /-- Bounds the input held, the declared lengths and the copies made for references. -/
  maxSize : Nat := 16777216
  offset : Nat := 0
  length : Option Nat := none
  stringRef : Bool := true
  sharedRef : SharedRef := .off
  groups : Tag.Groups := {}
  edn : Diagnostic.Style := {}
  deriving DecidableEq, Repr, Inhabited

namespace Options

def check (o : Options) : Except Fault Unit := do
  o.flags.checkReading
  if maxDepthLimit < o.maxDepth then throw (.invalidOption "max_depth")
  if o.maxSize = 0 then throw (.invalidOption "max_size")
  if o.flags.contains .edn then o.edn.check

end Options
end Cbor.Decoder
