import Cbor.Decoder.Options
import Cbor.Item.Entries
import Cbor.Reference
import Cbor.Tag.Meaning
import Cbor.Wire.Lexeme

namespace Cbor

open Decoder (Options SharedRef)

inductive TagRole where
  | plain
  | stringNamespace
  | stringRef
  | shareable (cell : Nat)
  | sharedRef
  deriving DecidableEq, Repr

/-- An open container. `remaining` counts the elements or entries still due, unless the length is
indefinite. -/
inductive Frame where
  | array (items : Array Item) (remaining : Option Nat)
  | map (entries : Entries) (key : Option Item) (remaining : Option Nat)
  | tag (number : UInt64) (role : TagRole)
  | chunks (isText : Bool) (octets : Array UInt8)
  deriving Repr

/-- What lexemes have left behind beside the open containers. -/
structure Scope where
  depth : Nat := 0
  /-- The footprint of the copies made for references in the current item. -/
  expanded : Nat := 0
  strings : List StringNamespace := []
  shared : SharedItems := #[]
  deriving Repr

/-- The containers that are open form a stack, so an item may be left half read, and nesting costs no
recursion. -/
structure Assembly where
  stack : List Frame := []
  scope : Scope := {}
  deriving Repr

namespace Scope

variable (s : Scope)

def enter (maxDepth : Nat) : Except Fault Scope :=
  if s.depth < maxDepth then .ok { s with depth := s.depth + 1 } else .error .depth

def leave : Scope := { s with depth := s.depth - 1 }

def charge (maxSize n : Nat) : Except Fault Scope := do
  let total := s.expanded + n
  Lexeme.checkSize maxSize total
  return { s with expanded := total }

/-- Depth and copies are counted for each top-level item anew. -/
def nextItem : Scope := { s with depth := 0, expanded := 0 }

end Scope

def Item.native (flags : Flags) : Item → Item
  | .bytes b => if flags.contains .byte then .string b else .bytes b
  | .text b => if flags.contains .text then .string b else .text b
  | .float16 bits =>
    if flags.contains .float16 then .float64 (Binary.widenHalf bits) else .float16 bits
  | .float32 bits =>
    if flags.contains .float32 then .float64 (Binary.widenSingle bits) else .float32 bits
  | i => i

def Item.keyOctets (flags : Flags) : Item → Except Fault Octets
  | .unsigned n =>
    if flags.contains .intKey then .ok (Utf8.encode (Numeral.ofInt n.toNat))
    else .error .unsupportedKeyType
  | .negative n =>
    if flags.contains .intKey then .ok (Utf8.encode (Numeral.ofInt (-1 - n.toNat)))
    else .error .unsupportedKeyType
  | .bytes b => if flags.contains .keyByte then .ok b else .error .unsupportedKeyType
  | .text b => if flags.contains .keyText then .ok b else .error .unsupportedKeyType
  | _ => .error .unsupportedKeyType

/-- The key of an entry. String keys may not start with a zero octet. -/
def Item.mapKey (flags : Flags) (key : Item) : Except Fault Item := do
  if flags.contains .mapAsArray then return key.native flags
  let b ← key.keyOctets flags
  if b.head? = some 0 then throw .unsupportedKeyValue
  return .string b

namespace Assembly

def reset (a : Assembly) : Assembly :=
  { a with stack := [], scope := { a.scope.nextItem with strings := [], shared := #[] } }

@[simp] theorem reset_eq (a : Assembly) : a.reset = {} := rfl

/-- What is still due after one more; `none` if that was the last. -/
def countDown? : Option Nat → Option (Option Nat)
  | none => some none
  | some n => if n ≤ 1 then none else some (some (n - 1))

variable (o : Options)

def checkText (b : Octets) : Except Fault Unit :=
  if o.flags.contains .uncheckedText ∨ Utf8.isValid b then .ok () else .error .utf8

/-- The growth of a container of indefinite length is bounded as it happens. -/
def checkGrowth (remaining : Option Nat) (size : Nat) : Except Fault Unit :=
  if remaining.isNone then Lexeme.checkSize o.maxSize (size + 1) else .ok ()

def closeTag (number : UInt64) (role : TagRole) (content : Item) (s : Scope) :
    Except Fault (Item × Scope) :=
  match role with
  | .stringNamespace => .ok (content, { s with strings := s.strings.tail })
  | .stringRef => do
    let item ← StringNamespace.resolve content s.strings
    return (item, ← s.charge o.maxSize item.footprint)
  | .shareable cell =>
    let item := content.native o.flags
    let item := if o.sharedRef = .shareable then .shareable cell item else item
    .ok (item, { s with shared := s.shared.setIfInBounds cell (some (item, item.footprint)) })
  | .sharedRef => do
    let (item, cost) ← s.shared.resolve content
    return (item, ← s.charge o.maxSize cost)
  | .plain => do
    match ← Tag.interpret o.groups number content with
    | some item => return (item, s)
    | none => return (.tag number (content.native o.flags), s)

/-- Puts a finished item into the innermost container and closes each container that this
completes. At top level the item is the answer. -/
def complete : List Frame → Scope → Item → Except Fault (Option Item × Assembly)
  | [], s, item => .ok (some (item.native o.flags), ⟨[], s.nextItem⟩)
  | .array items remaining :: stack, s, item => do
    checkGrowth o remaining items.size
    let items := items.push (item.native o.flags)
    match countDown? remaining with
    | some remaining => return (none, ⟨.array items remaining :: stack, s⟩)
    | none => complete stack s.leave (.array items.toList)
  | .map entries none remaining :: stack, s, item => do
    checkGrowth o remaining entries.items.size
    let key ← item.mapKey o.flags
    if o.flags.contains .mapNoDupKey ∧ entries.contains key then throw .duplicateKey
    return (none, ⟨.map entries (some key) remaining :: stack, s⟩)
  | .map entries (some key) remaining :: stack, s, item =>
    let entries := entries.insert o.flags key (item.native o.flags)
    match countDown? remaining with
    | some remaining => .ok (none, ⟨.map entries none remaining :: stack, s⟩)
    | none => complete stack s.leave (.map entries.items.toList)
  | .tag number role :: stack, s, item => do
    let (item, s) ← closeTag o number role item s.leave
    complete stack s item
  | .chunks .. :: _, _, _ => .error (.internal "value inside string chunks")

/-- An empty container needs room for its level, but is complete at once. -/
def openArray (count : Option UInt64) (a : Assembly) : Except Fault (Option Item × Assembly) := do
  let s ← a.scope.enter o.maxDepth
  if count = some 0 then complete o a.stack s.leave (.array [])
  else return (none, ⟨.array #[] (count.map UInt64.toNat) :: a.stack, s⟩)

def openMap (count : Option UInt64) (a : Assembly) : Except Fault (Option Item × Assembly) := do
  let s ← a.scope.enter o.maxDepth
  if count = some 0 then complete o a.stack s.leave (.map [])
  else return (none, ⟨.map .empty none (count.map UInt64.toNat) :: a.stack, s⟩)

def inShareable : List Frame → Bool
  | .tag _ (.shareable _) :: _ => true
  | _ => false

/-- What a tag will do, once `s` has gone one level deeper. A shareable item may not itself be
shared again at once. -/
def openRole (inShareable : Bool) (number : UInt64) (s : Scope) :
    Except Fault (TagRole × Scope) :=
  if number = Tag.stringRefNamespace ∧ o.stringRef then
    .ok (.stringNamespace, { s with strings := #[] :: s.strings })
  else if number = Tag.stringRef ∧ o.stringRef then .ok (.stringRef, s)
  else if number = Tag.shareable ∧ o.sharedRef ≠ .off then
    if inShareable then .error (.tagSyntax Tag.shareable)
    else .ok (.shareable s.shared.size, { s with shared := s.shared.push none })
  else if number = Tag.sharedRef ∧ o.sharedRef ≠ .off then .ok (.sharedRef, s)
  else .ok (.plain, s)

def openTag (number : UInt64) (a : Assembly) : Except Fault (Option Item × Assembly) := do
  let s ← a.scope.enter o.maxDepth
  let (role, s) ← openRole o (inShareable a.stack) number s
  return (none, ⟨.tag number role :: a.stack, s⟩)

def completeString (item : Item) (length : Nat) (a : Assembly) :
    Except Fault (Option Item × Assembly) :=
  let s := { a.scope with strings := StringNamespace.record item length a.scope.strings }
  complete o a.stack s item

def addChunk (isText : Bool) (octets : Array UInt8) (stack : List Frame) (s : Scope)
    (chunkIsText : Bool) (chunk : Octets) : Except Fault (Option Item × Assembly) := do
  if chunkIsText then checkText o chunk
  if chunkIsText ≠ isText then throw (.grammar .inconsistentStringType)
  Lexeme.checkSize o.maxSize (octets.size + chunk.length)
  return (none, ⟨.chunks isText (octets ++ chunk) :: stack, s⟩)

/-- Inside a string of indefinite length only its chunks and the end may stand. -/
def pushChunk (isText : Bool) (octets : Array UInt8) (stack : List Frame) (s : Scope) :
    Lexeme → Except Fault (Option Item × Assembly)
  | .bytes b => addChunk o isText octets stack s false b
  | .text b => addChunk o isText octets stack s true b
  | .stop => complete o stack s (if isText then .text octets.toList else .bytes octets.toList)
  | .bytesStart | .textStart => .error (.grammar .nestedIndefiniteString)
  | _ => .error (.grammar .inconsistentStringType)

/-- A break ends an array, or a map after a whole entry, of indefinite length. -/
def closeIndefinite : List Frame → Scope → Except Fault (Option Item × Assembly)
  | [], _ => .error (.grammar .breakUnderflow)
  | .array items none :: stack, s => complete o stack s.leave (.array items.toList)
  | .map entries none none :: stack, s => complete o stack s.leave (.map entries.items.toList)
  | _ :: _, _ => .error (.grammar .breakUnexpected)

def pushItem (stack : List Frame) (s : Scope) : Lexeme → Except Fault (Option Item × Assembly)
  | .unsigned n => complete o stack s (.unsigned n)
  | .negative n => complete o stack s (.negative n)
  | .bytes b => completeString o (.bytes b) b.length ⟨stack, s⟩
  | .text b => do
    checkText o b
    completeString o (.text b) b.length ⟨stack, s⟩
  | .bytesStart => .ok (none, ⟨.chunks false #[] :: stack, s⟩)
  | .textStart => .ok (none, ⟨.chunks true #[] :: stack, s⟩)
  | .array count => openArray o count ⟨stack, s⟩
  | .map count => openMap o count ⟨stack, s⟩
  | .tag number => openTag o number ⟨stack, s⟩
  | .simple _ => .error .unsupportedType
  | .bool b => complete o stack s (.bool b)
  | .null => complete o stack s .null
  | .undefined => complete o stack s .undefined
  | .float16 bits => complete o stack s (.float16 bits)
  | .float32 bits => complete o stack s (.float32 bits)
  | .float64 bits => complete o stack s (.float64 bits)
  | .stop => closeIndefinite o stack s

/-- Takes one lexeme; the answer is the top-level item that it completes, if any. -/
def push (a : Assembly) (l : Lexeme) : Except Fault (Option Item × Assembly) :=
  match a with
  | ⟨.chunks isText octets :: stack, s⟩ => pushChunk o isText octets stack s l
  | ⟨stack, s⟩ => pushItem o stack s l

end Assembly
end Cbor
