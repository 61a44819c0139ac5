import Cbor.Item.View

namespace Cbor

/-- Whether a reference with number `index` is shorter than a string of `length` octets. -/
def worthReferencing (index length : Nat) : Bool :=
  (if index < 24 then 3
  else if index < 256 then 4
  else if index < 65536 then 5
  else if index < 4294967296 then 7
  else 11) ≤ length

abbrev StringNamespace := Array Item

def StringNamespace.record (item : Item) (length : Nat) :
    List StringNamespace → List StringNamespace
  | [] => []
  | inner :: outer =>
    (if worthReferencing inner.size length then inner.push item else inner) :: outer

def StringNamespace.resolve (content : Item) : List StringNamespace → Except Fault Item
  | [] => .error (.tagSyntax Tag.stringRef)
  | inner :: _ =>
    match content with
    | .unsigned index =>
      match inner[index.toNat]? with
      | some item => .ok item
      | none => .error (.tagValue Tag.stringRef)
    | _ => .error (.tagType Tag.stringRef)

/-- The shared items as they are read, each with its footprint. An item is missing from when its tag
opens until the tag closes: a reference to it would be inside itself. -/
abbrev SharedItems := Array (Option (Item × Nat))

def SharedItems.resolve (items : SharedItems) : Item → Except Fault (Item × Nat)
  | .unsigned index =>
    match items[index.toNat]? with
    | some (some found) => .ok found
    | some none => .error .recursion
    | none => .error (.tagValue Tag.sharedRef)
  | _ => .error (.tagType Tag.sharedRef)

/-- The strings of one namespace as they are written, each with whether it is text. -/
abbrev StringTable := Array (Bool × Octets)

/-- The number of a string written before; otherwise the table with the string in it, if that is
worth it. -/
def StringTable.lookup (table : StringTable) (isText : Bool) (b : Octets) :
    Option Nat × StringTable :=
  match table.idxOf? (isText, b) with
  | some index => (some index, table)
  | none => (none, if worthReferencing table.size b.length then table.push (isText, b) else table)

/-- The cells written so far. Tags 28 that the caller writes take a number without a cell. -/
abbrev CellTable := Array (Option Nat)

def CellTable.lookup (table : CellTable) (cell : Nat) : Option Nat × CellTable :=
  match table.idxOf? (some cell) with
  | some index => (some index, table)
  | none => (none, table.push (some cell))

end Cbor
