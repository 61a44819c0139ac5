import Cbor.Assembly
import Cbor.Diagnostic.Literal

namespace Cbor.Diagnostic

/-- An open container of a transcript. `appended` says whether an item stands in it, `wrapped`
whether the content of a tag begins on a line of its own. -/
inductive Bracket where
  | array (remaining : Option Nat) (appended : Bool)
  | map (remaining : Option Nat) (appended isKey : Bool)
  | tag (wrapped : Bool)
  | chunks (isText appended : Bool)
  deriving DecidableEq, Repr

structure Page where
  out : Array Char := #[]
  width : Nat := 0
  depth : Nat := 0
  deriving Repr

structure Transcript where
  stack : List Bracket := []
  page : Page := {}
  deriving Repr

namespace Page

variable (st : Style) (p : Page)

def write (s : List Char) : Page := { p with out := p.out ++ s }

def space : Page := if st.space then p.write [' '] else p

def lineBreak (space : Bool) : Page := p.write (st.lineBreak p.width space)

def unit : Nat := (st.indent.unit?.map Prod.snd).getD 0

def indent (space : Bool) : Page :=
  { p with width := p.width + unit st }.lineBreak st space

def outdent : Page := { p with width := p.width - unit st }.lineBreak st false

def leave : Page := { p with depth := p.depth - 1 }

def trimSeparators : Page :=
  { p with out := p.out.popWhile fun c ↦ c = ' ' || c = '\t' || c = '\n' || c = ',' }

end Page

namespace Transcript

def reset (t : Transcript) : Transcript :=
  { t with stack := [], page := { t.page with out := #[], width := 0, depth := 0 } }

variable (o : Decoder.Options)

/-- Writes what follows a finished item and closes each container that it completes; the answer says
whether a top-level item is complete. -/
def itemDone : List Bracket → Page → Bool × Transcript
  | [], p => (true, ⟨[], p⟩)
  | .array remaining _ :: stack, p =>
    match Assembly.countDown? remaining with
    | some remaining =>
      (false, ⟨.array remaining true :: stack, (p.write [',']).lineBreak o.edn true⟩)
    | none => itemDone stack ((p.leave.outdent o.edn).write [']'])
  | .map remaining appended true :: stack, p =>
    (false, ⟨.map remaining appended false :: stack, (p.write [':']).space o.edn⟩)
  | .map remaining _ false :: stack, p =>
    match Assembly.countDown? remaining with
    | some remaining =>
      (false, ⟨.map remaining true true :: stack, (p.write [',']).lineBreak o.edn true⟩)
    | none => itemDone stack ((p.leave.outdent o.edn).write ['\x7d'])
  | .tag wrapped :: stack, p =>
    let p := p.leave
    itemDone stack ((if wrapped then p.outdent o.edn else p).write [')'])
  | .chunks isText appended :: stack, p => (false, ⟨.chunks isText appended :: stack, p⟩)

abbrev Answer := Except Fault Bool × Transcript

def answer (r : Bool × Transcript) : Answer := (.ok r.1, r.2)

def scalar (s : List Char) (t : Transcript) : Answer := answer (itemDone o t.stack (t.page.write s))

def writeString (isText : Bool) (b : Octets) (p : Page) : Page :=
  p.write (if isText then textLiteral b else o.edn.bytesLiteral p.width b)

def isWrapped (b : Octets) : Bool := o.edn.byteWrap.any fun w ↦ w.toNat < b.length

def string (isText : Bool) (b : Octets) : Transcript → Answer
  | ⟨.chunks chunksAreText appended :: stack, p⟩ =>
    if chunksAreText ≠ isText then
      (.error (.grammar .inconsistentStringType), ⟨.chunks chunksAreText appended :: stack, p⟩)
    else
      let p :=
        if appended then (p.write [',']).lineBreak o.edn true
        else (p.write ['(', '_']).indent o.edn true
      answer (itemDone o (.chunks chunksAreText true :: stack) (writeString o isText b p))
  | ⟨.tag false :: stack, p⟩ =>
    if !isText && isWrapped o b then
      answer (itemDone o (.tag true :: stack) (writeString o isText b (p.indent o.edn false)))
    else answer (itemDone o (.tag false :: stack) (writeString o isText b p))
  | ⟨stack, p⟩ => answer (itemDone o stack (writeString o isText b p))

def enter (t : Transcript) (k : Transcript → Answer) : Answer :=
  let ⟨stack, p⟩ := t
  if p.depth < o.maxDepth then k ⟨stack, { p with depth := p.depth + 1 }⟩
  else (.error .depth, ⟨stack, p⟩)

def openTag (number : UInt64) (t : Transcript) : Answer :=
  enter o t fun ⟨stack, p⟩ ↦
    (.ok false, ⟨.tag false :: stack, p.write (Numeral.ofNat number.toNat ++ ['('])⟩)

/-- The opening bracket; an empty container is closed at once. -/
def openContainer (left right : Char) (bracket : Bracket) (count : Option UInt64)
    (t : Transcript) : Answer :=
  enter o t fun ⟨stack, p⟩ ↦
    match count with
    | some 0 => scalar o [left, right] ⟨stack, p.leave⟩
    | some _ => (.ok false, ⟨bracket :: stack, (p.write [left]).indent o.edn false⟩)
    | none => (.ok false, ⟨bracket :: stack, (p.write [left, '_']).indent o.edn true⟩)

def closeIndefinite (right : Char) (appended : Bool) (stack : List Bracket) (p : Page) : Answer :=
  let p := p.leave
  let p := if appended then p.trimSeparators else p
  answer (itemDone o stack ((p.outdent o.edn).write [right]))

def close : Transcript → Answer
  | ⟨[], p⟩ => (.error (.grammar .breakUnderflow), ⟨[], p⟩)
  | ⟨.chunks isText false :: stack, p⟩ =>
    let q := if isText then '"' else quote
    answer (itemDone o stack (p.write [q, q, '_']))
  | ⟨.chunks _ true :: stack, p⟩ => answer (itemDone o stack ((p.outdent o.edn).write [')']))
  | ⟨.array none appended :: stack, p⟩ => closeIndefinite o ']' appended stack p
  | ⟨.map none appended true :: stack, p⟩ => closeIndefinite o '\x7d' appended stack p
  | t => (.error (.grammar .breakUnexpected), t)

def chunkFault? (stack : List Bracket) (l : Lexeme) : Option Fault :=
  match stack with
  | .chunks .. :: _ =>
    match l with
    | .bytes _ | .text _ | .stop => none
    | .bytesStart | .textStart => some (.grammar .nestedIndefiniteString)
    | _ => some (.grammar .inconsistentStringType)
  | _ => none

def write (t : Transcript) (l : Lexeme) : Answer :=
  match l with
  | .unsigned n => scalar o (Numeral.ofInt n.toNat) t
  | .negative n => scalar o (Numeral.ofInt (-1 - n.toNat)) t
  | .bytes b => string o false b t
  | .text b => string o true b t
  | .bytesStart => (.ok false, { t with stack := .chunks false false :: t.stack })
  | .textStart => (.ok false, { t with stack := .chunks true false :: t.stack })
  | .array count => openContainer o '[' ']' (.array (count.map UInt64.toNat) false) count t
  | .map count => openContainer o '\x7b' '\x7d' (.map (count.map UInt64.toNat) false true) count t
  | .tag number => openTag o number t
  | .simple n => scalar o ("simple(".toList ++ Numeral.ofNat n.toNat ++ [')']) t
  | .bool b => scalar o (if b then "true".toList else "false".toList) t
  | .null => scalar o "null".toList t
  | .undefined => scalar o "undefined".toList t
  | .float16 bits => scalar o (floatLiteral Binary.single (Binary.halfToSingle bits).toNat '1') t
  | .float32 bits => scalar o (floatLiteral Binary.single bits.toNat '2') t
  | .float64 bits => scalar o (floatLiteral Binary.double bits.toNat '3') t
  | .stop => close o t

def push (t : Transcript) (l : Lexeme) : Answer :=
  match chunkFault? t.stack l with
  | some e => (.error e, t)
  | none => write o t l

end Transcript
end Cbor.Diagnostic
