import Cbor.Fault

namespace Cbor

structure Flags where
  bits : UInt32
  deriving DecidableEq, Repr

namespace Flags

def empty : Flags := ⟨0⟩

/-- Write the self-describe tag in front; keep it when it is read. -/
def selfDescribe : Flags := ⟨0x1⟩

/-- Native strings are byte strings on the wire. -/
def byte : Flags := ⟨0x2⟩

/-- Native strings are text strings on the wire. -/
def text : Flags := ⟨0x4⟩

/-- Native string keys that are integers in decimal are integers on the wire. -/
def intKey : Flags := ⟨0x8⟩

/-- Native string keys are byte strings on the wire. -/
def keyByte : Flags := ⟨0x10⟩

/-- Native string keys are text strings on the wire. -/
def keyText : Flags := ⟨0x20⟩

/-- Maps are read as pairs in order with keys of any type. -/
def mapAsArray : Flags := ⟨0x40⟩

/-- The UTF-8 of text strings is not checked. -/
def uncheckedText : Flags := ⟨0x80⟩

/-- Native floats are binary16 on the wire. -/
def float16 : Flags := ⟨0x100⟩

/-- Native floats are binary32 on the wire. -/
def float32 : Flags := ⟨0x200⟩

/-- Maps with the same key twice are refused when read. -/
def mapNoDupKey : Flags := ⟨0x800⟩

/-- Core deterministic encoding: sorted map keys and shortest floats. -/
def cde : Flags := ⟨0x1000⟩

/-- Diagnostic notation is read instead of items. -/
def edn : Flags := ⟨0x2000⟩

def all : Flags := ⟨0x3BFF⟩

instance : OrOp Flags := ⟨fun a b ↦ ⟨a.bits ||| b.bits⟩⟩

instance : AndOp Flags := ⟨fun a b ↦ ⟨a.bits &&& b.bits⟩⟩

def compl (a : Flags) : Flags := ⟨~~~a.bits &&& all.bits⟩

def diff (a b : Flags) : Flags := a &&& b.compl

def standard : Flags := byte ||| keyByte

instance : Inhabited Flags := ⟨standard⟩

def ofBits? (bits : UInt32) : Option Flags := if bits &&& ~~~all.bits = 0 then some ⟨bits⟩ else none

def contains (a b : Flags) : Bool := a.bits &&& b.bits = b.bits

def intersects (a b : Flags) : Bool := a.bits &&& b.bits ≠ 0

def checkKnown (a : Flags) : Except Fault Unit :=
  let unknown := a.bits &&& ~~~all.bits
  if unknown = 0 then .ok () else .error (.invalidFlags (.unknown unknown))

def checkWriting (a : Flags) : Except Fault Unit := do
  a.checkKnown
  if a.contains (byte ||| text) then throw (.invalidFlags .bothString)
  if a.contains (keyByte ||| keyText) then throw (.invalidFlags .bothKeyString)

def checkReading (a : Flags) : Except Fault Unit := do
  a.checkKnown
  if a.contains (float16 ||| float32) then throw (.invalidFlags .bothFloat)

end Flags
end Cbor
