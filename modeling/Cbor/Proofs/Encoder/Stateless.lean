import Cbor.Encoder.Basic

namespace Cbor.Encoder

namespace Emit

def nested (o : Options) (content : Emit Unit) : Emit Unit := do
  enter o.maxDepth
  content
  leave

def tagged (o : Options) (tag : UInt64) (content : Emit Unit) : Emit Unit :=
  nested o do
    head 6 tag
    content

def inNamespace (content : Emit Unit) : Emit Unit := do
  head 6 Tag.stringRefNamespace
  ExceptT.mk do
    modify fun s ↦ { s with strings := #[] :: s.strings }
    let r ← content.run
    modify fun s ↦ { s with strings := s.strings.tail }
    return r

def stamp (o : Options) (t : Moment) : Emit Unit :=
  match Rfc3339.format? t with
  | some s => tagged o Tag.dateTime (string true (Utf8.encode s))
  | none => throw .unsupportedValue

def bignum (o : Options) (b : Bignum) : Emit Unit :=
  match b.word? with
  | some n => head (if b.negative then 1 else 0) n
  | none =>
    tagged o (if b.negative then Tag.negativeBignum else Tag.positiveBignum)
      (string false b.magnitude)

def fraction (o : Options) (tag : UInt64) (f : Fraction) : Emit Unit :=
  tagged o tag <| nested o do
    head 4 2
    integer f.exponent.toInt
    bignum o f.mantissa

def decimal (o : Options) (f : Fraction) : Emit Unit :=
  if f.exponent = 0 ∧ f.mantissa.word?.isSome then bignum o f.mantissa
  else fraction o Tag.decimal f

def tag (o : Options) (number : UInt64) (item : Item) (content : Emit Unit) : Emit Unit := do
  if number = Tag.stringRefNamespace ∧ o.stringRef ≠ .off then nested o (inNamespace content)
  else
    if number = Tag.stringRef ∧ o.stringRef ≠ .off then checkStringRef item
    if number = Tag.shareable ∧ o.sharedRef then reserveCell
    tagged o number content

def shareable (o : Options) (cell : Nat) (item : Item) (content : Emit Unit) : Emit Unit := do
  if o.flags.contains .cde then throw .unsupportedValue
  if item.isShareable then throw (.tagValue Tag.shareable)
  match ← findCell o cell with
  | some index => tagged o Tag.sharedRef (head 0 (.ofNat index))
  | none => tagged o Tag.shareable content

/-- The writing of one map entry: of its key alone and without references, and of both. -/
structure EntryPlan where
  key : Emit Unit
  entry : Emit Unit

def keyOctets (key : Emit Unit) (depth : Nat) : Except Fault Octets :=
  match key.run.run { depth } with
  | (.ok _, s) => .ok s.octets.toList
  | (.error e, _) => .error e

def sortedEntries (plans : List EntryPlan) : Emit Unit := do
  let depth := (← get).depth
  let keyed ← plans.mapM fun p ↦ do
    return (← keyOctets p.key depth, p.entry)
  (keyed.mergeSort fun a b ↦ Octets.ble a.1 b.1).forM Prod.snd

end Emit

open Emit

mutual

/-- The writing of an item to a sink alone: the options, with their groups and their limit of the
depth, are handed down, and nothing is there to be put back. -/
def write (o : Options) (asKey : Bool) : Item → Emit Unit
  | .unsigned n => head 0 n
  | .negative n => head 1 n
  | .bytes b => string false b
  | .text b => text o b
  | .string b => if asKey then keyString o b else nativeString o b
  | .array items =>
    nested o do
      head 4 (.ofNat items.length)
      writeAll o items
  | .map entries =>
    nested o do
      head 5 (.ofNat entries.length)
      if o.flags.contains .cde then sortedEntries (entryPlans o entries)
      else writeEntries o entries
  | .tag number content => tag o number content (write o false content)
  | .bool b => put [if b then 0xF5 else 0xF4]
  | .null => put [0xF6]
  | .undefined => put [0xF7]
  | .float16 bits => float16 bits
  | .float32 bits =>
    if o.flags.contains .cde then shortestFloat (Binary.widenSingle bits) else float32 bits
  | .float64 bits => nativeFloat o bits
  | .dateTime t => do
    require o.groups.dateTime
    stamp o t
  | .bignum b => do
    require o.groups.bignum
    bignum o b
  | .decimal f => do
    require o.groups.decimal
    decimal o f
  | .bigFloat f => do
    require o.groups.decimal
    fraction o Tag.bigFloat f
  | .uri u => do
    require o.groups.uri
    tagged o Tag.uri (string true u.octets)
  | .shareable cell content =>
    if asKey then throw .unsupportedKeyType
    else shareable o cell content (write o false content)
  | .custom _ result =>
    if asKey then throw .unsupportedKeyType
    else nested o (writeResult o result)
  | .params p content => do
    let inner ← o.override p
    nested o (write inner asKey content)

def writeAll (o : Options) : List Item → Emit Unit
  | [] => pure ()
  | i :: is => do
    write o false i
    writeAll o is

def writeEntries (o : Options) : List (Item × Item) → Emit Unit
  | [] => pure ()
  | (k, i) :: is => do
    write o true k
    write o false i
    writeEntries o is

def entryPlans (o : Options) : List (Item × Item) → List EntryPlan
  | [] => []
  | (k, i) :: is =>
    ⟨write o.withoutReferences true k, do write o true k; write o false i⟩ :: entryPlans o is

def writeResult (o : Options) : Except Fault Item → Emit Unit
  | .error e => throw e
  | .ok i => write o false i

end

def whole (o : Options) (i : Item) : Emit Unit :=
  if o.stringRef = .on then inNamespace (write o false i) else write o false i

end Cbor.Encoder
