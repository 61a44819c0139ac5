import Cbor.Calendar.Rfc3339
import Cbor.Encoder.Sink

namespace Cbor

/-- While an item is written the options in force may change, and the groups with them. The limit of
the depth is that of the options the encoder was made with. -/
structure Encoder where
  options : Encoder.Options
  groups : Tag.Groups := options.groups
  maxDepth : Nat := options.maxDepth
  sink : Encoder.Sink := {}
  deriving Repr

namespace Encoder

namespace Emit

def require (enabled : Bool) : Emit Unit := if enabled then pure () else throw .unsupportedType

def nativeString (o : Options) (b : Octets) : Emit Unit :=
  if o.flags.contains .text then text o b
  else if o.flags.contains .byte then string false b
  else throw (.invalidFlags .noString)

/-- The integer between -2⁶⁴ and 2⁶⁴ - 1 that a key spells in decimal. -/
def integerKey? (b : Octets) : Option Int := do
  let n ← Numeral.canonicalInt? (← Utf8.decode? b)
  if -18446744073709551616 ≤ n ∧ n < 18446744073709551616 then some n else none

def keyString (o : Options) (b : Octets) : Emit Unit :=
  match if o.flags.contains .intKey then integerKey? b else none with
  | some n => integer n
  | none =>
    if o.flags.contains .keyText then text o b
    else if o.flags.contains .keyByte then string false b
    else throw (.invalidFlags .noKeyString)

/-- A reference that the caller writes must name a string of the innermost namespace. -/
def checkStringRef (content : Item) : Emit Unit := do
  match (← get).strings with
  | [] => throw (.tagSyntax Tag.stringRef)
  | table :: _ =>
    match content with
    | .unsigned index => if table.size ≤ index.toNat then throw (.tagValue Tag.stringRef)
    | _ => throw (.tagType Tag.stringRef)

/-- Counts a shareable tag that the caller writes, which stands for no cell. -/
def reserveCell : Emit Unit := modify fun s ↦ { s with cells := s.cells.push none }

def findCell (o : Options) (cell : Nat) : Emit (Option Nat) :=
  if o.sharedRef then
    modifyGet fun s ↦
      let (found, cells) := s.cells.lookup cell
      (found, { s with cells })
  else pure none

end Emit

def Options.withoutReferences (o : Options) : Options :=
  { o with stringRef := .off, sharedRef := false }

/-- What a failure leaves behind stays in the encoder. -/
abbrev Writing := ExceptT Fault (StateM Encoder)

namespace Writing

open Emit

@[inline] def onSink (act : Emit α) : Writing α :=
  ExceptT.mk fun ⟨options, groups, maxDepth, sink⟩ ↦
    let (r, sink) := act.run.run sink
    (r, ⟨options, groups, maxDepth, sink⟩)

instance (priority := low) : MonadLift Emit Writing := ⟨onSink⟩

def options : Writing Options := return (← get).options

def groups : Writing Tag.Groups := return (← get).groups

def maxDepth : Writing Nat := return (← get).maxDepth

/-- One level deeper. A level is given back only if what is written in it succeeds. -/
@[inline] def nested (content : Writing Unit) : Writing Unit := do
  enter (← maxDepth)
  content
  leave

@[inline] def tagged (tag : UInt64) (content : Writing Unit) : Writing Unit :=
  nested do
    head 6 tag
    content

/-- Undoes what was done for the content, also after a failure. -/
@[inline] def undoing (undo : Encoder → Encoder) (content : Writing Unit) : Writing Unit :=
  ExceptT.mk do
    let r ← content.run
    modify undo
    return r

@[inline] def inNamespace (content : Writing Unit) : Writing Unit := do
  head 6 Tag.stringRefNamespace
  modify fun e ↦ { e with sink.strings := #[] :: e.sink.strings }
  undoing (fun e ↦ { e with sink.strings := e.sink.strings.tail }) content

/-- Puts other options in force, and their groups, until the content is written. -/
@[inline] def withOptions (inner : Options) (content : Writing Unit) : Writing Unit := do
  let options ← options
  let groups ← groups
  modify fun e ↦ { e with options := inner, groups := inner.groups }
  undoing (fun e ↦ { e with options, groups }) content

def stamp (t : Moment) : Writing Unit :=
  match Rfc3339.format? t with
  | some s => tagged Tag.dateTime (string true (Utf8.encode s))
  | none => throw .unsupportedValue

def bignum (b : Bignum) : Writing Unit :=
  match b.word? with
  | some n => head (if b.negative then 1 else 0) n
  | none =>
    tagged (if b.negative then Tag.negativeBignum else Tag.positiveBignum)
      (string false b.magnitude)

def fraction (tag : UInt64) (f : Fraction) : Writing Unit :=
  tagged tag <| nested do
    head 4 2
    integer f.exponent.toInt
    bignum f.mantissa

/-- A decimal fraction without exponent is written as its mantissa if that is a plain integer. -/
def decimal (f : Fraction) : Writing Unit :=
  if f.exponent = 0 ∧ f.mantissa.word?.isSome then bignum f.mantissa
  else fraction Tag.decimal f

/-- A tag that the caller writes, with the writing of its content. The tags of the references that
are in use take part in them. -/
@[inline] def tag (number : UInt64) (item : Item) (content : Writing Unit) : Writing Unit := do
  let o ← options
  if number = Tag.stringRefNamespace ∧ o.stringRef ≠ .off then nested (inNamespace content)
  else
    if number = Tag.stringRef ∧ o.stringRef ≠ .off then checkStringRef item
    if number = Tag.shareable ∧ o.sharedRef then reserveCell
    tagged number content

@[inline] def shareable (cell : Nat) (item : Item) (content : Writing Unit) : Writing Unit := do
  let o ← options
  if o.flags.contains .cde then throw .unsupportedValue
  if item.isShareable then throw (.tagValue Tag.shareable)
  match ← findCell o cell with
  | some index => tagged Tag.sharedRef (head 0 (.ofNat index))
  | none => tagged Tag.shareable content

end Writing

def octets (e : Encoder) : Octets := e.sink.octets.toList

/-- An encoder for a key on its own, with all that is in force where the key stands. -/
def scratch (e : Encoder) : Encoder :=
  { e with options := e.options.withoutReferences, sink := { depth := e.sink.depth } }

namespace Writing

open Emit

def keyOctets (key : Writing Unit) (scratch : Encoder) : Except Fault Octets :=
  match key.run.run scratch with
  | (.ok _, e) => .ok e.octets
  | (.error f, _) => .error f

/-- Entries in the bytewise order of their keys; equal keys stay in their order. Each entry is the
writing of a key and that of a value. -/
def sortedEntries (entries : List (Writing Unit × Writing Unit)) : Writing Unit := do
  let scratch ← Encoder.scratch <$> get
  let keyed ← entries.mapM fun entry ↦ do
    return (← keyOctets entry.1 scratch, entry)
  (keyed.mergeSort fun a b ↦ Octets.ble a.1 b.1).forM fun (_, key, value) ↦ do
    key
    value

mutual

def item (asKey : Bool) : Item → Writing Unit
  | .unsigned n => head 0 n
  | .negative n => head 1 n
  | .bytes b => string false b
  | .text b => do text (← options) b
  | .string b => do
    if asKey then keyString (← options) b else nativeString (← options) b
  | .array is =>
    nested do
      head 4 (.ofNat is.length)
      items is
  | .map es =>
    nested do
      head 5 (.ofNat es.length)
      if (← options).flags.contains .cde then sortedEntries (entryWritings es) else entries es
  | .tag number content => tag number content (item false content)
  | .bool b => put [if b then 0xF5 else 0xF4]
  | .null => put [0xF6]
  | .undefined => put [0xF7]
  | .float16 bits => float16 bits
  | .float32 bits => do
    if (← options).flags.contains .cde then shortestFloat (Binary.widenSingle bits)
    else float32 bits
  | .float64 bits => do nativeFloat (← options) bits
  | .dateTime t => do
    require (← groups).dateTime
    stamp t
  | .bignum b => do
    require (← groups).bignum
    bignum b
  | .decimal f => do
    require (← groups).decimal
    decimal f
  | .bigFloat f => do
    require (← groups).decimal
    fraction Tag.bigFloat f
  | .uri u => do
    require (← groups).uri
    tagged Tag.uri (string true u.octets)
  | .shareable cell content =>
    if asKey then throw .unsupportedKeyType else shareable cell content (item false content)
  | .custom _ result =>
    if asKey then throw .unsupportedKeyType else nested (hookResult result)
  | .params p content => do
    let inner ← (← options).override p
    nested (withOptions inner (item asKey content))

def items : List Item → Writing Unit
  | [] => pure ()
  | i :: is => do
    item false i
    items is

def entries : List (Item × Item) → Writing Unit
  | [] => pure ()
  | (k, i) :: es => do
    item true k
    item false i
    entries es

def entryWritings : List (Item × Item) → List (Writing Unit × Writing Unit)
  | [] => []
  | (k, i) :: es => (item true k, item false i) :: entryWritings es

def hookResult : Except Fault Item → Writing Unit
  | .error e => throw e
  | .ok i => item false i

end

/-- A top-level item. The namespace around it does not count towards the depth. -/
def whole (i : Item) : Writing Unit := do
  if (← options).stringRef = .on then inNamespace (item false i) else item false i

end Writing

def new (o : Options) : Except Fault Encoder := do
  o.check
  let octets := if o.flags.contains .selfDescribe then Tag.selfDescribeHead.toArray else #[]
  return { options := o, sink := { octets } }

def emit (e : Encoder) (item : Item) : Except Fault Unit × Encoder := (Writing.whole item).run.run e

end Encoder

def encode (item : Item) (o : Encoder.Options) : Except Fault Octets := do
  let (r, e) := (← Encoder.new o).emit item
  r
  return e.octets

end Cbor
