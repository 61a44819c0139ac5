import Cbor.Assembly
import Cbor.Diagnostic.Transcript
import Cbor.Octets.Slice

namespace Cbor

namespace Decoder

/-- What the lexemes are made into: items, or their diagnostic notation as a text string. -/
inductive Product where
  | items (a : Assembly)
  | diagnostic (t : Diagnostic.Transcript)
  deriving Repr

namespace Product

def start (o : Options) : Product :=
  if o.flags.contains .edn then diagnostic {} else items {}

def isEmpty : Product → Bool
  | items a => a.stack.isEmpty
  | diagnostic t => t.stack.isEmpty

def reset : Product → Product
  | items a => items a.reset
  | diagnostic t => diagnostic t.reset

def push (o : Options) : Product → Lexeme → Except Fault (Option Item × Product)
  | items a, l => do
    let (item, a) ← a.push o l
    return (item, items a)
  | diagnostic t, l =>
    match t.push o l with
    | (.error e, _) => .error e
    | (.ok false, t) => .ok (none, diagnostic t)
    | (.ok true, ⟨stack, p⟩) =>
      .ok (some (.ofText p.out.toList), diagnostic ⟨stack, { p with out := #[] }⟩)

end Product

/-- A self-describe tag in front of a top-level item goes unseen, once, unless it is to be kept. -/
def skips (o : Options) (stripped isEmpty : Bool) (l : Lexeme) : Bool :=
  l = .tag Tag.selfDescribe && !stripped && isEmpty && !o.flags.contains .selfDescribe

/-- Where reading stops: at the end of an item, at the end of the input inside of one, or at a
lexeme that is not accepted, which is then still in the input. -/
inductive Halt where
  | ready (item : Item) (rest : Octets) (product : Product)
  | waiting (rest : Octets) (product : Product) (stripped forContent : Bool)
  | failed (fault : Fault) (rest : Octets)
  deriving Repr

def run (o : Options) (product : Product) (stripped : Bool) (buffer : Octets) : Halt :=
  match _h : Lexeme.read o.maxSize buffer with
  | .error e => .failed e buffer
  | .ok .needHeader => .waiting buffer product stripped false
  | .ok .needContent => .waiting buffer product stripped true
  | .ok (.ready l rest) =>
    if skips o stripped product.isEmpty l then run o product true rest
    else
      match product.push o l with
      | .error e => .failed e buffer
      | .ok (some item, product) => .ready item rest product
      | .ok (none, product) => run o product stripped rest
termination_by buffer.length
decreasing_by all_goals exact Lexeme.length_lt_of_read ‹_›

inductive State where
  /-- Nothing is buffered and no item is begun. -/
  | idle
  | awaitingHeader
  | awaitingContent
  | itemReady
  | error
  deriving DecidableEq, Repr

end Decoder

structure Decoder where
  options : Decoder.Options
  buffer : Octets := []
  product : Decoder.Product
  value : Option Item := none
  fault : Option Fault := none
  awaitingContent : Bool := false
  stripped : Bool := false
  deriving Repr

namespace Decoder

def start (o : Options) : Decoder := { options := o, product := .start o }

def new (o : Options) : Except Fault Decoder := do
  o.check
  return start o

variable (d : Decoder)

/-- Enters the state that only `reset` leaves. -/
def fail (e : Fault) : Except Fault α × Decoder := (.error e, { d with fault := some e })

def add (data : Octets) : Except Fault Unit × Decoder :=
  match d.fault with
  | some e => (.error e, d)
  | none =>
    if d.options.maxSize < d.buffer.length + data.length then d.fail .unsupportedSize
    else (.ok (), { d with buffer := d.buffer ++ data })

def addRange (data : Octets) (offset : Int64) (length : Option Int64) :
    Except Fault Unit × Decoder :=
  d.add (data.slice offset length)

/-- Reads on; the answer says whether an item has become ready. While one waits to be taken, nothing
is read. A fault in the input gives up what is half read. -/
def process : Decoder → Except Fault Bool × Decoder
  | ⟨o, buffer, product, none, none, _, stripped⟩ =>
    match run o product stripped buffer with
    | .ready item rest product => (.ok true, ⟨o, rest, product, some item, none, false, false⟩)
    | .waiting rest product stripped forContent =>
      (.ok false, ⟨o, rest, product, none, none, forContent, stripped⟩)
    | .failed e rest => { start o with buffer := rest }.fail e
  | d =>
    match d.fault with
    | some e => (.error e, d)
    | none => (.ok false, d)

def take : Option Item × Decoder := (d.value, { d with value := none })

def reset : Decoder :=
  { d with
    buffer := []
    product := d.product.reset
    value := none
    fault := none
    awaitingContent := false
    stripped := false }

def isPartial : Bool := d.value.isNone && (!d.buffer.isEmpty || !d.product.isEmpty)

def state : State :=
  if d.fault.isSome then .error
  else if d.value.isSome then .itemReady
  else if d.buffer.isEmpty && d.product.isEmpty then .idle
  else if d.awaitingContent then .awaitingContent
  else .awaitingHeader

end Decoder

/-- The one item that the window of `data` given by offset and length holds. -/
def decode (data : Octets) (o : Decoder.Options) : Except Fault Item := do
  let d ← Decoder.new o
  let (added, d) := d.add (data.window o.offset o.length)
  added
  let (ready, d) := d.process
  match ← ready, d.value with
  | true, some item => if d.buffer.isEmpty then return item else throw .extraneousData
  | _, _ => throw .truncatedData

end Cbor
