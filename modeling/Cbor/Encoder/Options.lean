import Cbor.Flags
import Cbor.Tag

namespace Cbor

def defaultMaxDepth : Nat := 64

def maxDepthLimit : Nat := 10000

namespace Encoder

/-- When repeated strings are replaced by references: never, everywhere, or only inside the
namespace tags that the item itself has. -/
inductive StringRef where
  | off
  | on
  | explicit
  deriving DecidableEq, Repr

structure Options where
  flags : Flags := Flags.standard
  maxDepth : Nat := defaultMaxDepth
  stringRef : StringRef := .off
  sharedRef : Bool := false
  groups : Tag.Groups := {}
  deriving DecidableEq, Repr, Inhabited

/-- Changes to the options for one subtree: flags to set and to clear, and groups to replace. -/
structure Overrides where
  flags : Flags := Flags.empty
  flagsClear : Flags := Flags.empty
  dateTime : Option Bool := none
  bignum : Option Bool := none
  decimal : Option Bool := none
  uri : Option Bool := none
  deriving DecidableEq, Repr, Inhabited

namespace Options

def check (o : Options) : Except Fault Unit := do
  o.flags.checkWriting
  if maxDepthLimit < o.maxDepth then throw (.invalidOption "max_depth")

/-- Of two flags that exclude each other, setting one drops the other. -/
def exclude (a b set flags : Flags) : Flags :=
  let flags := if set.contains a then flags.diff b else flags
  if set.contains b then flags.diff a else flags

def override (o : Options) (p : Overrides) : Except Fault Options := do
  if p.flagsClear.contains .cde then throw (.invalidFlags .clearCde)
  let flags := exclude .byte .text p.flags (o.flags.diff p.flagsClear)
  let flags := exclude .keyByte .keyText p.flags flags
  let changed : Options :=
    { o with
      flags := flags ||| p.flags
      groups :=
        { dateTime := p.dateTime.getD o.groups.dateTime
          bignum := p.bignum.getD o.groups.bignum
          decimal := p.decimal.getD o.groups.decimal
          uri := p.uri.getD o.groups.uri } }
  changed.check
  return changed

end Options
end Encoder
end Cbor
